import RustDogecoin.Bip158

/-!
# Filters from anyone

`match_any` and `match_all` on arbitrary bytes.  The sums of the codes are described on the bits, up
to where they end: because the stated number of them has been read, because the bits end, or because
a `u64` overflows.  A scan returns unless it reads past the last sum and an overflow comes next.
-/

namespace RustDogecoin

namespace Bip158

open BitString

/-- Golomb encoding parameter as in BIP-158. -/
def P : ℕ := 19

def M : UInt64 := 784931

/-! ## The sums of the codes -/

/-- How many ones stand in front. -/
def ones (bits : List Bool) : ℕ := (bits.takeWhile id).length

/-- The number whose code stands in front, and what follows it.  There is none if the bits end before. -/
def frontCode (p : ℕ) (bits : List Bool) : Option (ℕ × List Bool) :=
  match bits.dropWhile id with
  | [] => none
  | _ :: low =>
    if p ≤ low.length then some (ones bits * 2 ^ p % 2 ^ 64 + ofBits (low.take p), low.drop p) else none

/-- Why no further code is added. -/
inductive Ending where
  | count
  | eof
  | overflow
  deriving DecidableEq, Repr

/-- The sums that come up when at most `n` codes are added to `data` one after the other, and why there
is no other one.  The ones of a code are counted in a `u64` as well. -/
def sums (p : ℕ) : ℕ → ℕ → List Bool → List ℕ × Ending
  | 0, _, _ => ([], .count)
  | n + 1, data, bits =>
    if 2 ^ 64 ≤ ones bits then ([], .overflow)
    else match frontCode p bits with
      | none => ([], .eof)
      | some (delta, rest) =>
        if data + delta < 2 ^ 64 then
          ((data + delta) :: (sums p n (data + delta) rest).1, (sums p n (data + delta) rest).2)
        else ([], .overflow)

/-- What a scan returns that reads past the last sum. -/
def Ending.result : Ending → Outcome IoError Bool
  | .count => return false
  | .eof => .err .unexpectedEof
  | .overflow => .panic .overflow

/-- The first of the sums with those after it. -/
theorem sums_succ_cons {p n data delta : ℕ} {bits rest : List Bool} (hones : ones bits < 2 ^ 64)
    (hcode : frontCode p bits = some (delta, rest)) (hlt : data + delta < 2 ^ 64) :
    sums p (n + 1) data bits =
      ((data + delta) :: (sums p n (data + delta) rest).1, (sums p n (data + delta) rest).2) := by
  rw [sums, if_neg (not_le.2 hones), hcode]
  exact if_pos hlt

/-- Sums do not fall. -/
theorem sorted_sums (p n data : ℕ) (bits : List Bool) :
    (data :: (sums p n data bits).1).Pairwise (· ≤ ·) := by
  induction n generalizing data bits with
  | zero => exact List.pairwise_singleton _ _
  | succ n ih =>
    rw [sums]
    split_ifs with hones
    · exact List.pairwise_singleton _ _
    cases frontCode p bits with
    | none => exact List.pairwise_singleton _ _
    | some code =>
      dsimp only
      split_ifs with hlt
      · have hnext := ih (data + code.1) code.2
        refine List.pairwise_cons.2 ⟨fun v hv => ?_, hnext⟩
        rcases List.mem_cons.1 hv with rfl | hv
        · exact Nat.le_add_right _ _
        · exact (Nat.le_add_right _ _).trans ((List.pairwise_cons.1 hnext).1 v hv)
      · exact List.pairwise_singleton _ _

theorem eq_ones_append (bits : List Bool) :
    bits = List.replicate (ones bits) true ++ bits.dropWhile id := by
  have hones : bits.takeWhile id = List.replicate (ones bits) true :=
    List.eq_replicate_iff.2 ⟨rfl, fun b hb => List.mem_takeWhile_imp hb⟩
  rw [← hones, List.takeWhile_append_dropWhile]

/-- What is left behind the ones begins with a zero. -/
theorem dropWhile_eq_cons {bits low : List Bool} {b : Bool} (h : bits.dropWhile id = b :: low) : b = false := by
  have hb := List.head_dropWhile_not id (l := bits) (by rw [h]; exact List.cons_ne_nil b low)
  simpa [h] using hb

/-- What a code is made of. -/
theorem exists_of_frontCode {p delta : ℕ} {bits rest : List Bool}
    (h : frontCode p bits = some (delta, rest)) :
    ∃ low, bits.dropWhile id = false :: low ∧ p ≤ low.length ∧
      delta = ones bits * 2 ^ p % 2 ^ 64 + ofBits (low.take p) ∧ rest = low.drop p := by
  unfold frontCode at h
  cases hdrop : bits.dropWhile id with
  | nil => simp [hdrop] at h
  | cons b low =>
    obtain rfl := dropWhile_eq_cons hdrop
    rw [hdrop] at h
    dsimp only at h
    split_ifs at h with hp
    simp only [Option.some.injEq, Prod.mk.injEq] at h
    exact ⟨low, rfl, hp, h.1.symm, h.2.symm⟩

theorem ofBits_take_lt {p : ℕ} {low : List Bool} (hp : p ≤ low.length) : ofBits (low.take p) < 2 ^ p := by
  have hlt := ofBits_lt (low.take p)
  rwa [List.length_take, Nat.min_eq_left hp] at hlt

/-- A code is shorter than the bits, and its number no more than they can hold. -/
theorem frontCode_bound {p delta : ℕ} {bits rest : List Bool} (h : frontCode p bits = some (delta, rest)) :
    delta + rest.length * 2 ^ p ≤ bits.length * 2 ^ p := by
  obtain ⟨low, hdrop, hp, rfl, rfl⟩ := exists_of_frontCode h
  have hlen := congrArg List.length (List.takeWhile_append_dropWhile (p := id) (l := bits))
  rw [List.length_append, hdrop, List.length_cons] at hlen
  have hlow := ofBits_take_lt hp
  have hhigh : ones bits * 2 ^ p % 2 ^ 64 ≤ ones bits * 2 ^ p := Nat.mod_le _ _
  have hsum : (ones bits + 1 + (low.drop p).length) * 2 ^ p ≤ bits.length * 2 ^ p := by
    apply Nat.mul_le_mul_right
    rw [← hlen, List.length_drop, ones]
    omega
  rw [Nat.add_mul, Nat.add_mul, Nat.one_mul] at hsum
  omega

/-- The shift of the high part leaves the low bits of the word free. -/
theorem shift_add_lt {p q low : ℕ} (hp : p < 64) (hlow : low < 2 ^ p) :
    q * 2 ^ p % 2 ^ 64 + low < 2 ^ 64 := by
  have hpow : 2 ^ 64 = 2 ^ (64 - p) * 2 ^ p := by
    rw [← pow_add]
    congr 1
    omega
  have hlast : q % 2 ^ (64 - p) + 1 ≤ 2 ^ (64 - p) := Nat.mod_lt _ (Nat.two_pow_pos _)
  have hmul := Nat.mul_le_mul_right (2 ^ p) hlast
  rw [Nat.add_mul, Nat.one_mul] at hmul
  rw [hpow, Nat.mul_mod_mul_right]
  omega

theorem frontCode_lt {p delta : ℕ} {bits rest : List Bool} (hp : p < 64)
    (h : frontCode p bits = some (delta, rest)) : delta < 2 ^ 64 := by
  obtain ⟨low, -, hlow, rfl, -⟩ := exists_of_frontCode h
  exact shift_add_lt hp (ofBits_take_lt hlow)

/-- A stream that is not very long has no sum that overflows. -/
theorem sums_ending_ne_overflow {p n data : ℕ} {bits : List Bool}
    (h : data + bits.length * 2 ^ p < 2 ^ 64) : (sums p n data bits).2 ≠ .overflow := by
  induction n generalizing data bits with
  | zero => exact Ending.noConfusion
  | succ n ih =>
    have hones : ones bits < 2 ^ 64 := by
      have hle : ones bits ≤ bits.length := (List.takeWhile_sublist _).length_le
      have hmul : bits.length * 1 ≤ bits.length * 2 ^ p := Nat.mul_le_mul_left _ Nat.one_le_two_pow
      omega
    rw [sums, if_neg (not_le.2 hones)]
    cases hcode : frontCode p bits with
    | none => exact Ending.noConfusion
    | some code =>
      have hbound := frontCode_bound hcode
      dsimp only
      rw [if_pos (by omega)]
      exact ih (by omega)

/-! ## Decoding any code -/

namespace GcsFilter

variable {f : GcsFilter} {r : BitStreamReader}

/-- Ones that do not end. -/
theorem readOnes_eq_err {q q₀ fuel : ℕ} (hoffset : r.offset ≤ 8) (hbits : r.bits = List.replicate q true)
    (hq : q₀ + q < 2 ^ 64) : readOnes fuel q₀ r = .err .unexpectedEof := by
  induction q generalizing r q₀ fuel with
  | zero =>
    have hread : r.read 1 = .err .unexpectedEof :=
      BitStreamReader.read_eq_err hoffset (by simp [hbits]) (by decide)
    cases fuel with
    | zero => rfl
    | succ fuel =>
      rw [readOnes, hread]
      rfl
  | succ q ih =>
    obtain ⟨r₁, hrun, hrest, hoff⟩ := read_bit hoffset hbits
    cases fuel with
    | zero => rfl
    | succ fuel =>
      rw [readOnes, hrun]
      simp only [Outcome.ok_bind, if_true]
      rw [Outcome.require_of (by omega), Outcome.ok_bind]
      exact ih hoff hrest (by omega)

/-- More ones than a `u64` counts. -/
theorem readOnes_eq_panic {q q₀ fuel : ℕ} {rest : List Bool} (hoffset : r.offset ≤ 8)
    (hbits : r.bits = List.replicate q true ++ rest) (hq₀ : q₀ < 2 ^ 64) (hq : 2 ^ 64 ≤ q₀ + q)
    (hfuel : q ≤ fuel) : readOnes fuel q₀ r = .panic .overflow := by
  induction q generalizing r q₀ fuel with
  | zero => omega
  | succ q ih =>
    obtain ⟨fuel, rfl⟩ := Nat.exists_eq_succ_of_ne_zero (by omega : fuel ≠ 0)
    obtain ⟨r₁, hrun, hrest, hoff⟩ := read_bit hoffset hbits
    rw [readOnes, hrun]
    simp only [Outcome.ok_bind, if_true]
    by_cases hnext : q₀ + 1 < 2 ^ 64
    · rw [Outcome.require_of hnext, Outcome.ok_bind]
      exact ih hoff hrest hnext (by omega) (by omega)
    · rw [Outcome.require, if_neg hnext]
      rfl

theorem golombRiceDecode_eq_panic (hoffset : r.offset ≤ 8) (hones : 2 ^ 64 ≤ ones r.bits) :
    f.golombRiceDecode r = .panic .overflow := by
  have hlen := r.length_bits_le
  have hle : ones r.bits ≤ r.bits.length := (List.takeWhile_sublist _).length_le
  have hrun : readOnes (8 * (r.reader.length + 1) + 1) 0 r = .panic .overflow :=
    readOnes_eq_panic hoffset (eq_ones_append r.bits) (by decide) (by omega) (by omega)
  rw [golombRiceDecode, hrun]
  rfl

theorem golombRiceDecode_eq_err (hp : f.p < 64) (hoffset : r.offset ≤ 8) (hones : ones r.bits < 2 ^ 64)
    (hcode : frontCode f.p r.bits = none) : f.golombRiceDecode r = .err .unexpectedEof := by
  have hsplit := eq_ones_append r.bits
  unfold frontCode at hcode
  cases hdrop : r.bits.dropWhile id with
  | nil =>
    rw [hdrop, List.append_nil] at hsplit
    rw [golombRiceDecode, readOnes_eq_err hoffset hsplit (by omega)]
    rfl
  | cons b low =>
    obtain rfl := dropWhile_eq_cons hdrop
    rw [hdrop] at hsplit hcode
    dsimp only at hcode
    split_ifs at hcode with hlow
    have hlen := r.length_bits_le
    have hle : ones r.bits ≤ r.bits.length := (List.takeWhile_sublist _).length_le
    obtain ⟨r₁, hrun, hrest, hoff⟩ := @readOnes_eq_ok r low (ones r.bits) 0
      (8 * (r.reader.length + 1) + 1) hoffset hsplit (by omega) (by omega)
    have hread : r₁.read f.p = .err .unexpectedEof :=
      BitStreamReader.read_eq_err hoff (by rw [hrest]; omega) hp.le
    rw [golombRiceDecode, hrun, Outcome.ok_bind]
    simp only [hread, Outcome.err_bind]

theorem golombRiceDecode_eq_ok_of_frontCode (hp : f.p < 64) (hoffset : r.offset ≤ 8)
    (hones : ones r.bits < 2 ^ 64) {delta : ℕ} {rest : List Bool}
    (hcode : frontCode f.p r.bits = some (delta, rest)) :
    ∃ r', f.golombRiceDecode r = .ok (delta, r') ∧ r'.bits = rest ∧ r'.offset ≤ 8 := by
  obtain ⟨low, hdrop, hlow, rfl, rfl⟩ := exists_of_frontCode hcode
  have hsplit := eq_ones_append r.bits
  rw [hdrop] at hsplit
  have hlen := r.length_bits_le
  have hle : ones r.bits ≤ r.bits.length := (List.takeWhile_sublist _).length_le
  obtain ⟨r₁, hrun, hrest, hoff⟩ := @readOnes_eq_ok r low (ones r.bits) 0
    (8 * (r.reader.length + 1) + 1) hoffset hsplit (by omega) (by omega)
  obtain ⟨v, r₂, hread, hval, hrest₂, hoff₂⟩ :=
    @BitStreamReader.read_eq_ok r₁ f.p hoff (by rw [hrest]; exact hlow) hp.le
  rw [hrest] at hval hrest₂
  have hv : v.toNat < 2 ^ f.p := by
    rw [hval]
    exact ofBits_take_lt hlow
  have hsum : ones r.bits * 2 ^ f.p % 2 ^ 64 + v.toNat < 2 ^ 64 := shift_add_lt hp hv
  refine ⟨r₂, ?_, hrest₂, hoff₂⟩
  rw [golombRiceDecode, hrun, Outcome.ok_bind]
  simp only [hread, Outcome.ok_bind, Nat.zero_add]
  rw [Outcome.require_of hp, Outcome.ok_bind, Outcome.require_of hsum, Outcome.ok_bind, ← hval]
  rfl

end GcsFilter

/-! ## Scanning any stream -/

namespace GcsFilterReader

open SortedScan

variable {f : GcsFilter} {r : BitStreamReader} {data : ℕ}

/-- `seek` skips the sums below `x`, and ends as the sums do if there is no other. -/
theorem seek_eq (hp : f.p < 64) (hoffset : r.offset ≤ 8) (x n : ℕ) :
    (skip x (data :: (sums f.p n data r.bits).1) = [] ∧
      seek f x n data r = (fun _ => none) <$> (sums f.p n data r.bits).2.result) ∨
    ∃ v vs n' r', skip x (data :: (sums f.p n data r.bits).1) = v :: vs ∧
      seek f x n data r = .ok (some (v, n', r')) ∧ r'.offset ≤ 8 ∧
      sums f.p n' v r'.bits = (vs, (sums f.p n data r.bits).2) := by
  induction n generalizing data r with
  | zero =>
    by_cases hlt : data < x
    · exact .inl ⟨by simp [skip, sums, hlt], by simp [seek, sums, Ending.result, hlt]⟩
    · exact .inr ⟨data, [], 0, r, by simp [skip, sums, hlt], by simp [seek, hlt], hoffset, rfl⟩
  | succ n ih =>
    by_cases hlt : data < x
    · rw [seek, if_pos hlt]
      by_cases hones : 2 ^ 64 ≤ ones r.bits
      · refine .inl ⟨?_, ?_⟩
        · rw [sums, if_pos hones]
          simp [skip, hlt]
        · rw [sums, if_pos hones, GcsFilter.golombRiceDecode_eq_panic hoffset hones]
          rfl
      rw [not_le] at hones
      cases hcode : frontCode f.p r.bits with
      | none =>
        have hsums : sums f.p (n + 1) data r.bits = ([], .eof) := by
          rw [sums, if_neg (not_le.2 hones), hcode]
        refine .inl ⟨by simp [hsums, skip, hlt], ?_⟩
        rw [hsums, GcsFilter.golombRiceDecode_eq_err hp hoffset hones hcode]
        rfl
      | some code =>
        obtain ⟨delta, rest⟩ := code
        obtain ⟨r₁, hrun, hrest, hoff⟩ := GcsFilter.golombRiceDecode_eq_ok_of_frontCode hp hoffset hones hcode
        simp only [hrun, Outcome.ok_bind]
        by_cases hnext : data + delta < 2 ^ 64
        · have hsums := sums_succ_cons (n := n) hones hcode hnext
          have hskip : ∀ l, skip x (data :: l) = skip x l := fun l => by simp [skip, hlt]
          rw [hsums, hskip, Outcome.require_of hnext, Outcome.ok_bind, ← hrest]
          exact ih hoff
        · have hsums : sums f.p (n + 1) data r.bits = ([], .overflow) := by
            rw [sums, if_neg (not_le.2 hones), hcode]
            exact if_neg hnext
          refine .inl ⟨by simp [hsums, skip, hlt], ?_⟩
          rw [hsums, Outcome.require, if_neg hnext]
          rfl
    · have hskip : ∀ l, skip x (data :: l) = data :: l := fun l => by simp [skip, hlt]
      exact .inr ⟨data, _, n + 1, r, hskip _, by simp [seek, hlt], hoffset, rfl⟩

theorem matchAnyLoop_eq (hp : f.p < 64) (hoffset : r.offset ≤ 8) (ps : List ℕ) (n : ℕ) :
    matchAnyLoop f ps n data r =
      if passes false ps (data :: (sums f.p n data r.bits).1) then (sums f.p n data r.bits).2.result
      else .ok (anyScan ps (data :: (sums f.p n data r.bits).1)) := by
  induction ps generalizing data n r with
  | nil => rfl
  | cons p ps ih =>
    rw [matchAnyLoop, passes, anyScan]
    rcases @seek_eq f r data hp hoffset p n with
      ⟨hskip, hseek⟩ | ⟨v, vs, n', r', hskip, hseek, hoffset', hsums⟩
    · rw [hskip, hseek, if_pos rfl]
      cases (sums f.p n data r.bits).2 <;> rfl
    · rw [hskip, hseek, Outcome.ok_bind]
      have hrest := @ih r' v hoffset' n'
      rw [hsums] at hrest
      by_cases hv : v = p
      · simp [hv]
      · simpa [hv] using hrest

theorem matchAllLoop_eq (hp : f.p < 64) (hoffset : r.offset ≤ 8) (ps : List ℕ) (n : ℕ) :
    matchAllLoop f ps n data r =
      if passes true ps (data :: (sums f.p n data r.bits).1) then (sums f.p n data r.bits).2.result
      else .ok (allScan ps (data :: (sums f.p n data r.bits).1)) := by
  induction ps generalizing data n r with
  | nil => rfl
  | cons p ps ih =>
    rw [matchAllLoop, passes, allScan]
    rcases @seek_eq f r data hp hoffset p n with
      ⟨hskip, hseek⟩ | ⟨v, vs, n', r', hskip, hseek, hoffset', hsums⟩
    · rw [hskip, hseek, if_pos rfl]
      cases (sums f.p n data r.bits).2 <;> rfl
    · rw [hskip, hseek, Outcome.ok_bind]
      have hrest := @ih r' v hoffset' n'
      rw [hsums] at hrest
      by_cases hv : v = p
      · simpa [hv] using hrest
      · simp [hv]

/-- The part that both functions share: the first code is added to zero, the loop adds the others. -/
theorem first_eq (hp : f.p < 64) {hit : Bool} {ps : List ℕ} {scan : List ℕ → Bool} (hps : ps ≠ [])
    {loop : ℕ → ℕ → BitStreamReader → Outcome IoError Bool}
    (hloop : ∀ {r : BitStreamReader} {data : ℕ}, r.offset ≤ 8 → ∀ n, loop n data r =
      if passes hit ps (data :: (sums f.p n data r.bits).1) then (sums f.p n data r.bits).2.result
      else .ok (scan (data :: (sums f.p n data r.bits).1)))
    {n : ℕ} (hn : n ≠ 0) (rest : Bytes) :
    (do
      let (data, bits) ← f.golombRiceDecode (.new rest)
      loop (n - 1) data bits) =
    if passes hit ps (sums f.p n 0 (unpack rest)).1 then (sums f.p n 0 (unpack rest)).2.result
    else .ok (scan (sums f.p n 0 (unpack rest)).1) := by
  obtain ⟨n, rfl⟩ := Nat.exists_eq_succ_of_ne_zero hn
  have hbits := BitStreamReader.bits_new rest
  have hpasses : passes hit ps [] = true := by
    cases ps with
    | nil => exact absurd rfl hps
    | cons p ps => rfl
  by_cases hones : 2 ^ 64 ≤ ones (unpack rest)
  · rw [sums, if_pos hones, GcsFilter.golombRiceDecode_eq_panic (le_refl 8) (by rwa [hbits]), hpasses]
    rfl
  rw [not_le] at hones
  cases hcode : frontCode f.p (unpack rest) with
  | none =>
    rw [sums, if_neg (not_le.2 hones), hcode,
      GcsFilter.golombRiceDecode_eq_err hp (le_refl 8) (by rwa [hbits]) (by rwa [hbits]), hpasses]
    rfl
  | some code =>
    obtain ⟨delta, low⟩ := code
    obtain ⟨r₁, hrun, hrest, hoff⟩ := GcsFilter.golombRiceDecode_eq_ok_of_frontCode hp
      (r := .new rest) (le_refl 8) (by rwa [hbits]) (by rw [hbits]; exact hcode)
    have hlt : 0 + delta < 2 ^ 64 := by
      rw [Nat.zero_add]
      exact frontCode_lt hp hcode
    rw [hrun, sums_succ_cons hones hcode hlt]
    simp only [Outcome.ok_bind, Nat.succ_sub_one, Nat.zero_add, ← hrest]
    exact hloop hoff n

end GcsFilterReader

/-! ## Which filters panic -/

theorem noPanic_implIntEncodable {α : Type} (n : ℕ) (toNat : α → ℕ) (ofNat : ℕ → α) (bs : Bytes) :
    ((implIntEncodable n toNat ofNat).consensusDecode.run bs).NoPanic := by
  have hread : ((readSlice n).run bs).NoPanic := by
    rw [Decoder.run_readExact]
    split_ifs
    · exact Outcome.noPanic_ok _
    · exact Outcome.noPanic_err _
  exact hread.bind fun _ _ => Outcome.noPanic_ok _

theorem noPanic_varInt (bs : Bytes) : (VarInt.consensusDecode.run bs).NoPanic := by
  have hcheck : ∀ (c : Prop) [Decidable c] (v : VarInt) (rest : Bytes),
      ((if c then Decoder.fail .nonMinimalVarInt else return v : Read VarInt).run rest).NoPanic := by
    intro c hc v rest
    split_ifs
    · exact Outcome.noPanic_err _
    · exact Outcome.noPanic_ok _
  rw [VarInt.consensusDecode, StateT.run_bind]
  refine (noPanic_implIntEncodable _ _ _ bs).bind fun read _ => ?_
  obtain ⟨n, rest⟩ := read
  dsimp only
  split_ifs
  · exact (noPanic_implIntEncodable _ _ _ rest).bind fun x _ => hcheck _ _ _
  · exact (noPanic_implIntEncodable _ _ _ rest).bind fun x _ => hcheck _ _ _
  · exact (noPanic_implIntEncodable _ _ _ rest).bind fun x _ => hcheck _ _ _
  · exact Outcome.noPanic_ok _

/-- The number of elements that a filter states, and the bits behind it.  What cannot be read counts as
zero. -/
def stated (filter : Bytes) : ℕ × List Bool :=
  match VarInt.consensusDecode.run filter with
  | .ok (nElements, rest) => (nElements.val.toNat, unpack rest)
  | _ => (0, [])

/-- The scan reads past the last sum, where a `u64` overflows: a query is above all of the sums, and the
queries that are not are all found, or all missing, as `hit` says. -/
def ReadsOverflow (hit : Bool) (s : List ℕ × Ending) (hashes : List ℕ) : Prop :=
  s.2 = .overflow ∧ (∃ p ∈ hashes, ∀ v ∈ s.1, v < p) ∧
    ∀ p ∈ hashes, (∀ v ∈ s.1, v < p) ∨ decide (p ∈ s.1) = hit

namespace GcsFilterReader

open SortedScan

variable {r : GcsFilterReader} {filter : Bytes} {query : List Bytes}

theorem readCount_eq (filter : Bytes) :
    ∃ rest, readCount filter = .ok ((stated filter).1, rest) ∧ unpack rest = (stated filter).2 := by
  unfold readCount stated
  cases h : VarInt.consensusDecode.run filter with
  | ok v => exact ⟨v.2, rfl, rfl⟩
  | err e => exact ⟨[], rfl, rfl⟩
  | panic p => exact absurd h (noPanic_varInt filter p)

theorem noPanic_mapErr_iff {α : Type} {x : Outcome IoError α} :
    (x.mapErr Error.io).NoPanic ↔ x.NoPanic :=
  forall_congr' fun _ => not_congr Outcome.mapErr_eq_panic_iff

theorem noPanic_result_iff {e : Ending} : e.result.NoPanic ↔ e ≠ .overflow := by
  cases e with
  | count => exact iff_of_true (Outcome.noPanic_ok false) Ending.noConfusion
  | eof => exact iff_of_true (Outcome.noPanic_err _) Ending.noConfusion
  | overflow => exact iff_of_false (fun h => h .overflow rfl) fun h => h rfl

/-- The queries `ps` of a scan are sorted, and where they are from does not matter otherwise. -/
theorem noPanic_scan_iff {f : GcsFilter} (hp : f.p < 64) {hit : Bool} {ps hashes : List ℕ}
    (hps : ps.Pairwise (· ≤ ·)) (hmem : ∀ p, p ∈ ps ↔ p ∈ hashes) {scan : List ℕ → Bool}
    {loop : ℕ → ℕ → BitStreamReader → Outcome IoError Bool}
    (hloop : ∀ {r : BitStreamReader} {data : ℕ}, r.offset ≤ 8 → ∀ n, loop n data r =
      if passes hit ps (data :: (sums f.p n data r.bits).1) then (sums f.p n data r.bits).2.result
      else .ok (scan (data :: (sums f.p n data r.bits).1)))
    (n : ℕ) (rest : Bytes) :
    (if ps = [] then return true
      else if n = 0 then return false
      else .mapErr .io do
        let (data, bits) ← f.golombRiceDecode (.new rest)
        loop (n - 1) data bits : Outcome Error Bool).NoPanic ↔
      ¬ReadsOverflow hit (sums f.p n 0 (unpack rest)) hashes := by
  have hsorted : (sums f.p n 0 (unpack rest)).1.Pairwise (· ≤ ·) :=
    (List.pairwise_cons.1 (sorted_sums f.p n 0 (unpack rest))).2
  by_cases hnil : ps = []
  · rw [if_pos hnil]
    refine iff_of_true (Outcome.noPanic_ok true) ?_
    rintro ⟨-, ⟨q, hq, -⟩, -⟩
    rw [← hmem q, hnil] at hq
    exact List.not_mem_nil hq
  rw [if_neg hnil]
  by_cases hn : n = 0
  · rw [if_pos hn, hn]
    exact iff_of_true (Outcome.noPanic_ok false) fun h => Ending.noConfusion h.1
  rw [if_neg hn, noPanic_mapErr_iff, first_eq hp hnil hloop hn rest, ReadsOverflow]
  simp only [← hmem]
  rw [← passes_iff hps hsorted]
  split_ifs with hpasses
  · rw [noPanic_result_iff, ne_eq, not_iff_not, and_iff_left hpasses]
  · exact iff_of_true (Outcome.noPanic_ok _) fun h => hpasses h.2

theorem mem_hashes_iff_map {n p : ℕ} :
    p ∈ r.hashes n query ↔ p ∈ query.map (rangeValue r.filter.k0 r.filter.k1 r.m n) := by
  rw [mem_hashes_iff, List.mem_map]
  rfl

theorem noPanic_matchAny_iff (hp : r.filter.p < 64) : (r.matchAny filter query).NoPanic ↔
    (stated filter).1 * r.m.toNat < 2 ^ 64 ∧
    ¬ReadsOverflow false (sums r.filter.p (stated filter).1 0 (stated filter).2)
      (query.map (rangeValue r.filter.k0 r.filter.k1 r.m (stated filter).1)) := by
  obtain ⟨rest, hcount, hunpack⟩ := readCount_eq filter
  rw [matchAny, hcount, Outcome.ok_bind, ← hunpack]
  dsimp only
  by_cases hnm : (stated filter).1 * r.m.toNat < 2 ^ 64
  · rw [mapQuery_eq_ok hnm, Outcome.ok_bind, and_iff_right hnm]
    exact noPanic_scan_iff hp (sorted_hashes query) (fun p => mem_hashes_iff_map)
      (fun hoff n => matchAnyLoop_eq hp hoff _ n) _ rest
  · rw [mapQuery, Outcome.require, if_neg hnm]
    exact iff_of_false (fun h => h .overflow rfl) fun h => hnm h.1

theorem noPanic_matchAll_iff (hp : r.filter.p < 64) : (r.matchAll filter query).NoPanic ↔
    (stated filter).1 * r.m.toNat < 2 ^ 64 ∧
    ¬ReadsOverflow true (sums r.filter.p (stated filter).1 0 (stated filter).2)
      (query.map (rangeValue r.filter.k0 r.filter.k1 r.m (stated filter).1)) := by
  obtain ⟨rest, hcount, hunpack⟩ := readCount_eq filter
  rw [matchAll, hcount, Outcome.ok_bind, ← hunpack]
  dsimp only
  by_cases hnm : (stated filter).1 * r.m.toNat < 2 ^ 64
  · rw [mapQuery_eq_ok hnm, Outcome.ok_bind, and_iff_right hnm]
    exact noPanic_scan_iff hp ((sorted_hashes query).sublist (sublist_dedup _)) 
      (fun p => (mem_dedup _).trans mem_hashes_iff_map)
      (fun hoff n => matchAllLoop_eq hp hoff _ n) _ rest
  · rw [mapQuery, Outcome.require, if_neg hnm]
    exact iff_of_false (fun h => h .overflow rfl) fun h => hnm h.1

end GcsFilterReader

theorem length_stated_le (filter : Bytes) : (stated filter).2.length ≤ 8 * filter.length := by
  unfold stated
  cases h : VarInt.consensusDecode.run filter with
  | ok v =>
    obtain ⟨-, w, -, hsplit⟩ := VarInt.canonical filter v.1 v.2 h
    have hlen := (BitStreamReader.new v.2).length_bits
    rw [BitStreamReader.bits_new] at hlen
    simp only [BitStreamReader.new] at hlen
    rw [hlen, hsplit, List.length_append]
    omega
  | err e => exact Nat.zero_le _
  | panic p => exact Nat.zero_le _

/-- With the parameters of BIP-158, `match_any` and `match_all` return exactly if the range of the stated
number of elements fits a `u64`, and the scan does not read a sum that does not. -/
theorem match_noPanic_iff (k0 k1 : UInt64) (filter : Bytes) (query : List Bytes) :
    (((GcsFilterReader.new k0 k1 M P).matchAny filter query).NoPanic ↔
      (stated filter).1 * M.toNat < 2 ^ 64 ∧
      ¬ReadsOverflow false (sums P (stated filter).1 0 (stated filter).2)
        (query.map (rangeValue k0 k1 M (stated filter).1))) ∧
    (((GcsFilterReader.new k0 k1 M P).matchAll filter query).NoPanic ↔
      (stated filter).1 * M.toNat < 2 ^ 64 ∧
      ¬ReadsOverflow true (sums P (stated filter).1 0 (stated filter).2)
        (query.map (rangeValue k0 k1 M (stated filter).1))) := by
  have hp : P < 64 := by decide
  exact ⟨GcsFilterReader.noPanic_matchAny_iff hp, GcsFilterReader.noPanic_matchAll_iff hp⟩

/-- The stated number 2^64 - 1 is multiplied before anything is looked at. -/
theorem match_panics_on_count : ¬∀ (filter : Bytes) (query : List Bytes),
    ((GcsFilterReader.new 0 0 M P).matchAny filter query).NoPanic ∧
      ((GcsFilterReader.new 0 0 M P).matchAll filter query).NoPanic := by
  intro h
  have hany : (GcsFilterReader.new 0 0 M P).matchAny (List.replicate 9 0xff) [] = .panic .overflow := by
    decide +kernel
  exact (h (List.replicate 9 0xff) []).1 .overflow hany

/-- On a filter of less than 2^42 bytes only the count matters. -/
theorem noPanic_of_short (k0 k1 : UInt64) {filter : Bytes} (query : List Bytes)
    (hlen : filter.length < 2 ^ 42) (hcount : (stated filter).1 * M.toNat < 2 ^ 64) :
    ((GcsFilterReader.new k0 k1 M P).matchAny filter query).NoPanic ∧
      ((GcsFilterReader.new k0 k1 M P).matchAll filter query).NoPanic := by
  have hp : P < 64 := by decide
  have hbits := length_stated_le filter
  have hends : (sums P (stated filter).1 0 (stated filter).2).2 ≠ .overflow := by
    apply sums_ending_ne_overflow
    rw [P]
    omega
  exact ⟨(GcsFilterReader.noPanic_matchAny_iff hp).2 ⟨hcount, fun h => hends h.1⟩,
    (GcsFilterReader.noPanic_matchAll_iff hp).2 ⟨hcount, fun h => hends h.1⟩⟩

end Bip158

end RustDogecoin
