import RustDogecoin.Blockdata.InstructionItems
import Mathlib.Data.List.Induction

/-!
# Counting signature operations

`Script::count_sigops` and `Script::count_sigops_legacy` of `blockdata/script/borrowed.rs`.  The loop keeps
the number of the last instruction that was not a signature operation, where the count by instructions
(`sigops`) takes the number of the instruction before.  The two differ where signature operations stand
between a number and `OP_CHECKMULTISIG` (`StaleNumber`), and then the loop counts less.
-/

namespace RustDogecoin

namespace Instructions

/-- The loop of `count_sigops_internal`. -/
def countSigopsLoop (accurate : Bool) : List Item → ℕ → Option UInt8 → ℕ
  | .ok (.op opcode) :: insts, n, pushnumCache =>
    if opcode = OP_CHECKSIG ∨ opcode = OP_CHECKSIGVERIFY then
      countSigopsLoop accurate insts (n + 1) pushnumCache
    else if opcode = OP_CHECKMULTISIG ∨ opcode = OP_CHECKMULTISIGVERIFY then
      match accurate, pushnumCache with
      | true, some pushnum => countSigopsLoop accurate insts (n + pushnum.toNat) pushnumCache
      | _, _ => countSigopsLoop accurate insts (n + 20) pushnumCache
    else countSigopsLoop accurate insts n (decodePushnum opcode)
  | .ok (.pushBytes _) :: insts, n, _ => countSigopsLoop accurate insts n none
  | .error _ :: _, n, _ => n
  | [], n, _ => n

/-- `Script::count_sigops_internal`.  The sum stays far below the limit of a `usize`, see
`countSigopsInternal_le`. -/
def countSigopsInternal (script : ScriptBuf) (accurate : Bool) : ℕ :=
  countSigopsLoop accurate (ScriptBuf.instructions script).items 0 none

end Instructions

/-- `Script::count_sigops`. -/
def Script.countSigops (script : ScriptBuf) : ℕ := Instructions.countSigopsInternal script true

/-- `Script::count_sigops_legacy`. -/
def Script.countSigopsLegacy (script : ScriptBuf) : ℕ := Instructions.countSigopsInternal script false

namespace Instructions

/-! ## The count by instructions -/

/-- The instructions up to the first error. -/
def okPrefix : List Item → List Instruction
  | .ok i :: is => i :: okPrefix is
  | _ => []

/-- The number of an instruction `OP_1` to `OP_16`. -/
def number : Instruction → Option UInt8
  | .op opcode => decodePushnum opcode
  | .pushBytes _ => none

def IsCheckSig (i : Instruction) : Prop := i = .op OP_CHECKSIG ∨ i = .op OP_CHECKSIGVERIFY

def IsCheckMultisig (i : Instruction) : Prop := i = .op OP_CHECKMULTISIG ∨ i = .op OP_CHECKMULTISIGVERIFY

instance : DecidablePred IsCheckSig := fun _ => inferInstanceAs (Decidable (_ ∨ _))

instance : DecidablePred IsCheckMultisig := fun _ => inferInstanceAs (Decidable (_ ∨ _))

/-- What an instruction counts for, with the number that goes with it. -/
def sigopCost (accurate : Bool) (num : Option UInt8) (i : Instruction) : ℕ :=
  if IsCheckSig i then 1
  else if IsCheckMultisig i then if accurate then (num.map UInt8.toNat).getD 20 else 20
  else 0

/-- The costs of the instructions, each with the number of the instruction before. -/
def sigopCosts (accurate : Bool) (prev : Option Instruction) (is : List Instruction) : List ℕ :=
  List.zipWith (fun prev i => sigopCost accurate (prev.bind number) i) (prev :: is.map some) is

/-- The sum over the instructions up to the first error. -/
def sigops (script : ScriptBuf) (accurate : Bool) : ℕ :=
  (sigopCosts accurate none (okPrefix (ScriptBuf.instructions script).items)).sum

/-- A number, one or more signature operations, and `OP_CHECKMULTISIG` or its other form. -/
def StaleNumber (is : List Instruction) : Prop :=
  ∃ before n sigs last after, is = before ++ .op (numberOpcode n) :: (sigs ++ last :: after) ∧
    1 ≤ n ∧ n ≤ 16 ∧ sigs ≠ [] ∧ (∀ i ∈ sigs, IsCheckSig i ∨ IsCheckMultisig i) ∧ IsCheckMultisig last

/-! ## What the loop counts -/

/-- The number behind an instruction. -/
def nextCache (cache : Option UInt8) (i : Instruction) : Option UInt8 :=
  if IsCheckSig i ∨ IsCheckMultisig i then cache else number i

/-- The costs of the instructions, each with the number in the cache. -/
def cacheCosts (accurate : Bool) : Option UInt8 → List Instruction → List ℕ
  | _, [] => []
  | cache, i :: is => sigopCost accurate cache i :: cacheCosts accurate (nextCache cache i) is

theorem countSigopsLoop_op (accurate : Bool) (opcode : UInt8) (is : List Item) (n : ℕ)
    (cache : Option UInt8) : countSigopsLoop accurate (.ok (.op opcode) :: is) n cache =
      countSigopsLoop accurate is (n + sigopCost accurate cache (.op opcode))
        (nextCache cache (.op opcode)) := by
  have hsig : IsCheckSig (.op opcode) ↔ opcode = OP_CHECKSIG ∨ opcode = OP_CHECKSIGVERIFY := by
    simp [IsCheckSig]
  have hmulti : IsCheckMultisig (.op opcode) ↔
      opcode = OP_CHECKMULTISIG ∨ opcode = OP_CHECKMULTISIGVERIFY := by
    simp [IsCheckMultisig]
  simp only [countSigopsLoop, sigopCost, nextCache, hsig, hmulti]
  by_cases h₁ : opcode = OP_CHECKSIG ∨ opcode = OP_CHECKSIGVERIFY
  · simp only [if_pos h₁, if_pos (Or.inl h₁)]
  · by_cases h₂ : opcode = OP_CHECKMULTISIG ∨ opcode = OP_CHECKMULTISIGVERIFY
    · simp only [if_neg h₁, if_pos h₂, if_pos (Or.inr h₂)]
      cases accurate <;> cases cache <;> rfl
    · simp only [if_neg h₁, if_neg h₂, if_neg (not_or.2 ⟨h₁, h₂⟩)]
      rfl

theorem countSigopsLoop_eq (accurate : Bool) (is : List Item) (n : ℕ) (cache : Option UInt8) :
    countSigopsLoop accurate is n cache = n + (cacheCosts accurate cache (okPrefix is)).sum := by
  induction is generalizing n cache with
  | nil => rfl
  | cons i is ih =>
    cases i with
    | error e => rfl
    | ok i =>
      have hstep : countSigopsLoop accurate (.ok i :: is) n cache =
          countSigopsLoop accurate is (n + sigopCost accurate cache i) (nextCache cache i) := by
        cases i with
        | op opcode => exact countSigopsLoop_op accurate opcode is n cache
        | pushBytes data => simp [countSigopsLoop, sigopCost, nextCache, IsCheckSig, IsCheckMultisig, number]
      rw [hstep, ih, okPrefix, cacheCosts, List.sum_cons, Nat.add_assoc]

/-! ## The two counts -/

theorem sigopCosts_cons (accurate : Bool) (prev : Option Instruction) (i : Instruction)
    (is : List Instruction) : sigopCosts accurate prev (i :: is) =
      sigopCost accurate (prev.bind number) i :: sigopCosts accurate (some i) is := rfl

/-- The legacy count does not look at numbers. -/
theorem cacheCosts_false (cache : Option UInt8) (prev : Option Instruction) (is : List Instruction) :
    cacheCosts false cache is = sigopCosts false prev is := by
  induction is generalizing cache prev with
  | nil => rfl
  | cons i is ih =>
    have hcost : sigopCost false cache i = sigopCost false (prev.bind number) i := by simp [sigopCost]
    rw [cacheCosts, sigopCosts_cons, ih _ (some i), hcost]

theorem number_of_sigop {i : Instruction} (h : IsCheckSig i ∨ IsCheckMultisig i) : number i = none := by
  rcases h with (rfl | rfl) | rfl | rfl <;> decide

theorem number_le {i : Instruction} {num : UInt8} (h : number i = some num) : num.toNat ≤ 16 := by
  cases i with
  | op opcode => exact (decodePushnum_eq_some_iff.1 h).2.1
  | pushBytes data => cases h

/-- The cache holds a number that the instruction before does not have. -/
def StaleIn (cache num : Option UInt8) (is : List Instruction) : Prop :=
  ∃ before last after, is = before ++ last :: after ∧ IsCheckMultisig last ∧
    before.foldl nextCache cache ≠ none ∧ before.foldl (fun _ i => number i) num = none

theorem staleIn_cons {cache num : Option UInt8} {i : Instruction} {is : List Instruction} :
    StaleIn cache num (i :: is) ↔
      (IsCheckMultisig i ∧ cache ≠ none ∧ num = none) ∨ StaleIn (nextCache cache i) (number i) is := by
  constructor
  · rintro ⟨before, last, after, heq, hlast, hcache, hnum⟩
    cases before with
    | nil =>
      cases heq
      exact .inl ⟨hlast, hcache, hnum⟩
    | cons j before =>
      cases heq
      exact .inr ⟨before, last, after, rfl, hlast, hcache, hnum⟩
  · rintro (⟨hlast, hcache, hnum⟩ | ⟨before, last, after, rfl, hlast, hcache, hnum⟩)
    · exact ⟨[], i, is, rfl, hlast, hcache, hnum⟩
    · exact ⟨i :: before, last, after, rfl, hlast, hcache, hnum⟩

/-- One instruction: a stale number makes `OP_CHECKMULTISIG` count less. -/
theorem sigopCost_le {cache num : Option UInt8} (hnum : num = none ∨ cache = num)
    (hmax : ∀ c ∈ cache, c.toNat ≤ 16) (i : Instruction) :
    sigopCost true cache i ≤ sigopCost true num i ∧
      (sigopCost true cache i = sigopCost true num i ↔ ¬(IsCheckMultisig i ∧ cache ≠ none ∧ num = none)) := by
  rcases hnum with rfl | rfl
  · by_cases hmulti : IsCheckMultisig i
    · have hsig : ¬IsCheckSig i := by rcases hmulti with rfl | rfl <;> decide
      cases cache with
      | none => simp
      | some c =>
        have hle := hmax c rfl
        simp only [sigopCost, if_neg hsig, if_true, Option.map_some, Option.getD_some,
          Option.map_none, Option.getD_none, hmulti, ne_eq, reduceCtorEq, not_false_eq_true, and_self,
          not_true_eq_false, iff_false]
        omega
    · simp [sigopCost, hmulti]
  · cases cache <;> simp

/-- The number in the cache is that of the instruction before, if this has one. -/
theorem nextCache_inv (cache : Option UInt8) (i : Instruction) :
    number i = none ∨ nextCache cache i = number i := by
  by_cases hsig : IsCheckSig i ∨ IsCheckMultisig i
  · exact .inl (number_of_sigop hsig)
  · exact .inr (if_neg hsig)

theorem nextCache_le {cache : Option UInt8} (h : ∀ c ∈ cache, c.toNat ≤ 16) (i : Instruction) :
    ∀ c ∈ nextCache cache i, c.toNat ≤ 16 := by
  intro c hc
  unfold nextCache at hc
  split_ifs at hc
  · exact h c hc
  · exact number_le hc

/-- The loop counts no more than the instructions do, and less where a number is stale. -/
theorem sum_cacheCosts {cache : Option UInt8} {prev : Option Instruction}
    (hnum : prev.bind number = none ∨ cache = prev.bind number) (hmax : ∀ c ∈ cache, c.toNat ≤ 16)
    (is : List Instruction) :
    (cacheCosts true cache is).sum ≤ (sigopCosts true prev is).sum ∧
      ((cacheCosts true cache is).sum = (sigopCosts true prev is).sum ↔
        ¬StaleIn cache (prev.bind number) is) := by
  induction is generalizing cache prev with
  | nil =>
    refine ⟨le_rfl, iff_of_true rfl ?_⟩
    rintro ⟨before, last, after, heq, -⟩
    cases before <;> cases heq
  | cons i is ih =>
    obtain ⟨hle, hiff⟩ := sigopCost_le hnum hmax i
    obtain ⟨hle', hiff'⟩ := @ih (nextCache cache i) (some i) (nextCache_inv cache i) (nextCache_le hmax i)
    rw [cacheCosts, sigopCosts_cons, List.sum_cons, List.sum_cons, staleIn_cons, not_or, ← hiff]
    have hsplit : ¬StaleIn (nextCache cache i) (number i) is ↔ _ := hiff'.symm
    rw [hsplit]
    omega

/-! ## Where a number is stale -/

theorem foldl_nextCache_eq_some {before : List Instruction} {num : UInt8}
    (h : before.foldl nextCache none = some num) : ∃ b sigs,
      before = b ++ .op (numberOpcode num.toNat) :: sigs ∧ 1 ≤ num.toNat ∧ num.toNat ≤ 16 ∧
        ∀ i ∈ sigs, IsCheckSig i ∨ IsCheckMultisig i := by
  induction before using List.reverseRecOn with
  | nil => cases h
  | append_singleton before i ih =>
    rw [List.foldl_append, List.foldl_cons, List.foldl_nil] at h
    unfold nextCache at h
    split_ifs at h with hsig
    · obtain ⟨b, sigs, rfl, hmin, hmax, hsigs⟩ := ih h
      refine ⟨b, sigs ++ [i], by simp, hmin, hmax, ?_⟩
      simpa [or_imp, forall_and] using ⟨hsigs, hsig⟩
    · cases i with
      | pushBytes data => cases h
      | op opcode =>
        obtain ⟨hmin, hmax, rfl⟩ := decodePushnum_eq_some_iff.1 h
        exact ⟨before, [], rfl, hmin, hmax, nofun⟩

theorem foldl_nextCache_sigs {sigs : List Instruction} (h : ∀ i ∈ sigs, IsCheckSig i ∨ IsCheckMultisig i)
    (cache : Option UInt8) : sigs.foldl nextCache cache = cache := by
  induction sigs with
  | nil => rfl
  | cons i sigs ih =>
    obtain ⟨hi, hsigs⟩ := List.forall_mem_cons.1 h
    rw [List.foldl_cons, nextCache, if_pos hi, ih hsigs]

theorem foldl_number (before : List Instruction) (i : Instruction) (num : Option UInt8) :
    (before ++ [i]).foldl (fun _ i => number i) num = number i := by
  rw [List.foldl_append]
  rfl

theorem staleIn_none_iff {is : List Instruction} : StaleIn none none is ↔ StaleNumber is := by
  constructor
  · rintro ⟨before, last, after, rfl, hlast, hcache, hnum⟩
    obtain ⟨num, hsome⟩ := Option.ne_none_iff_exists'.1 hcache
    obtain ⟨b, sigs, rfl, hmin, hmax, hsigs⟩ := foldl_nextCache_eq_some hsome
    refine ⟨b, num.toNat, sigs, last, after, by simp, hmin, hmax, ?_, hsigs, hlast⟩
    rintro rfl
    rw [foldl_number, number, decodePushnum_numberOpcode hmin hmax] at hnum
    cases hnum
  · rintro ⟨before, n, sigs, last, after, rfl, hmin, hmax, hne, hsigs, hlast⟩
    refine ⟨before ++ .op (numberOpcode n) :: sigs, last, after, by simp, hlast, ?_, ?_⟩
    · have hnot : ¬(IsCheckSig (.op (numberOpcode n)) ∨ IsCheckMultisig (.op (numberOpcode n))) := by
        intro hsig
        have hnone := number_of_sigop hsig
        rw [number, decodePushnum_numberOpcode hmin hmax] at hnone
        cases hnone
      rw [List.foldl_append, List.foldl_cons, foldl_nextCache_sigs hsigs, nextCache, if_neg hnot, number,
        decodePushnum_numberOpcode hmin hmax]
      exact Option.some_ne_none _
    · obtain ⟨sigs, i, rfl⟩ := (List.eq_nil_or_concat sigs).resolve_left hne
      rw [List.concat_eq_append] at hsigs ⊢
      have hlist : before ++ .op (numberOpcode n) :: (sigs ++ [i]) =
          (before ++ .op (numberOpcode n) :: sigs) ++ [i] := by simp
      rw [hlist, foldl_number]
      exact number_of_sigop (hsigs i (by simp))

/-! ## Bounds -/

theorem sigopCost_le_twenty {accurate : Bool} {num : Option UInt8} (hmax : ∀ c ∈ num, c.toNat ≤ 16)
    (i : Instruction) : sigopCost accurate num i ≤ 20 := by
  unfold sigopCost
  split_ifs
  · decide
  · cases num with
    | none => exact le_rfl
    | some c => exact (hmax c rfl).trans (by decide)
  · exact le_rfl
  · exact Nat.zero_le _

theorem length_okPrefix_le (is : List Item) : (okPrefix is).length ≤ is.length := by
  induction is with
  | nil => exact le_rfl
  | cons i is ih =>
    cases i with
    | error e => exact Nat.zero_le _
    | ok i => exact Nat.succ_le_succ ih

theorem sum_cacheCosts_le {accurate : Bool} {cache : Option UInt8} (hmax : ∀ c ∈ cache, c.toNat ≤ 16)
    (is : List Instruction) : (cacheCosts accurate cache is).sum ≤ 20 * is.length := by
  induction is generalizing cache with
  | nil => exact le_rfl
  | cons i is ih =>
    have hcost : sigopCost accurate cache i ≤ 20 := sigopCost_le_twenty hmax i
    have hrest := ih (nextCache_le hmax i)
    rw [cacheCosts, List.sum_cons, List.length_cons]
    omega

/-- No count comes near the limit of a `usize`. -/
theorem countSigopsInternal_le (script : ScriptBuf) (accurate : Bool) :
    countSigopsInternal script accurate ≤ 20 * script.length := by
  have hsum : (cacheCosts accurate none (okPrefix (ScriptBuf.instructions script).items)).sum ≤
      20 * (okPrefix (ScriptBuf.instructions script).items).length :=
    sum_cacheCosts_le (by simp) _
  have hprefix := length_okPrefix_le (ScriptBuf.instructions script).items
  have hlength : (ScriptBuf.instructions script).items.length ≤ script.length := length_items_le _
  rw [countSigopsInternal, countSigopsLoop_eq]
  omega

end Instructions

namespace Script

open Instructions

/-- The accurate count never exceeds the sum over the instructions, and is equal to it exactly if no number
is stale; the legacy count is always equal to it. -/
theorem countSigops_eq_iff (script : ScriptBuf) :
    countSigops script ≤ sigops script true ∧
    (countSigops script = sigops script true ↔
      ¬StaleNumber (okPrefix (ScriptBuf.instructions script).items)) ∧
    countSigopsLegacy script = sigops script false := by
  have hcompare := @sum_cacheCosts none none (.inl rfl) nofun
  obtain ⟨hle, hiff⟩ := hcompare (okPrefix (ScriptBuf.instructions script).items)
  rw [Option.bind_none, staleIn_none_iff] at hiff
  rw [countSigops, countSigopsLegacy, countSigopsInternal, countSigopsInternal, countSigopsLoop_eq,
    countSigopsLoop_eq, Nat.zero_add, Nat.zero_add, cacheCosts_false none none]
  exact ⟨hle, hiff, rfl⟩

/-- `OP_2`, `OP_CHECKSIG`, `OP_CHECKMULTISIG`. -/
theorem countSigops_stale_number :
    countSigops [0x52, 0xac, 0xae] = 3 ∧ sigops [0x52, 0xac, 0xae] true = 21 ∧
      countSigops [0x52, 0xac, 0xae] ≠ sigops [0x52, 0xac, 0xae] true := by decide

example : countSigops [0x52, 0xae] = 2 := by decide

end Script

end RustDogecoin
