import RustDogecoin.Blockdata.Sigops
import RustDogecoin.Blockdata.WitnessOps
import RustDogecoin.Consensus.GenericTypes
import Mathlib.Algebra.BigOperators.Group.List.Basic

/-!
# The signature operations of a transaction

`Transaction::total_sigop_cost` of `blockdata/transaction.rs` against `GetTransactionSigOpCost` (`sigOpCost`).  Core
takes the redeem script off a scriptSig that consists of pushes only.  The witness counter does so too, but
`count_p2sh_sigops` takes the last push of any scriptSig (`strayScript`), so it counts more; and the accurate count
of a script can be too low (`Script.countSigops_eq_iff`).
-/

namespace RustDogecoin

/-- `usize::MAX`. -/
def USIZE_MAX : ℕ := 2 ^ 64 - 1

/-- `usize::saturating_add`. -/
def saturatingAdd (a b : ℕ) : ℕ := min (a + b) USIZE_MAX

/-- `usize::saturating_mul`. -/
def saturatingMul (a b : ℕ) : ℕ := min (a * b) USIZE_MAX

namespace Script

/-- Checks whether a script is push only. -/
def isPushOnly (script : ScriptBuf) : Bool :=
  (ScriptBuf.instructions script).items.all fun
    | .error _ => false
    | .ok (.pushBytes _) => true
    | .ok (.op op) => op ≤ OP_PUSHNUM_16

/-- Iterates the script to find the last pushdata. -/
def lastPushdata (script : ScriptBuf) : Option PushBytes :=
  match (ScriptBuf.instructions script).items.getLast? with
  | some (.ok (.pushBytes bytes)) => some bytes
  | _ => none

end Script

namespace Transaction

open Script

/-- Gets the sigop count of the scriptSigs and the scriptPubkeys. -/
def countP2pkP2pkhSigops (tx : Transaction) : ℕ :=
  let count := tx.input.foldl (fun count input => saturatingAdd count (countSigopsLegacy input.scriptSig)) 0
  tx.output.foldl (fun count output => saturatingAdd count (countSigopsLegacy output.scriptPubkey)) count

/-- `count_sigops` inside `count_p2sh_sigops`. -/
def p2shSigops (prevout : TxOut) (input : TxIn) : ℕ :=
  let count := 0
  if isP2sh prevout.scriptPubkey then
    match lastPushdata input.scriptSig with
    | some redeem => saturatingAdd count (countSigops redeem.bytes)
    | none => count
  else count

/-- Does not include wrapped segwit (see `countWitnessSigops`). -/
def countP2shSigops (tx : Transaction) (spent : OutPoint → Option TxOut) : ℕ :=
  tx.input.foldl (fun count input =>
    match spent input.previousOutput with
    | some prevout => saturatingAdd count (p2shSigops prevout input)
    | none => count) 0

def sigopsWithWitnessProgram (witness : Witness) (witnessProgram : ScriptBuf) : Outcome Empty ℕ :=
  if isP2wpkh witnessProgram then return 1
  else if isP2wsh witnessProgram then do
    let last ← witness.repr.last
    return (last.map countSigops).getD 0
  else return 0

/-- `count_sigops` inside `count_witness_sigops`. -/
def witnessSigops (prevout : TxOut) (input : TxIn) : Outcome Empty ℕ :=
  let scriptSig := input.scriptSig
  let witness := input.witness
  if isWitnessProgram prevout.scriptPubkey then sigopsWithWitnessProgram witness prevout.scriptPubkey
  else if isP2sh prevout.scriptPubkey && isPushOnly scriptSig then
    match lastPushdata scriptSig with
    | some pushBytes => sigopsWithWitnessProgram witness pushBytes.bytes
    | none => return 0
  else return 0

/-- Includes wrapped segwit (returns 0 for taproot spends). -/
def countWitnessSigops (tx : Transaction) (spent : OutPoint → Option TxOut) : Outcome Empty ℕ :=
  tx.input.foldlM (fun count input =>
    match spent input.previousOutput with
    | some prevout => do return saturatingAdd count (← witnessSigops prevout input)
    | none => return count) 0

/-- Counts the total number of sigops. -/
def totalSigopCost (tx : Transaction) (spent : OutPoint → Option TxOut) : Outcome Empty ℕ := do
  let cost := saturatingMul (countP2pkP2pkhSigops tx) 4
  let cost := saturatingAdd cost (saturatingMul (countP2shSigops tx spent) 4)
  return saturatingAdd cost (← countWitnessSigops tx spent)

/-! ## The cost in Core -/

/-- The script that a scriptSig of pushes only ends with. -/
def pushedScript (scriptSig : ScriptBuf) : Option ScriptBuf :=
  if isPushOnly scriptSig then (lastPushdata scriptSig).map PushBytes.bytes else none

/-- A push operation: a data push, or an opcode up to `OP_16`. -/
def IsPush : Instruction → Prop
  | .pushBytes _ => True
  | .op opcode => opcode ≤ OP_PUSHNUM_16

theorem isPushOnly_iff {script : ScriptBuf} : isPushOnly script = true ↔
    ∃ is : List Instruction, (ScriptBuf.instructions script).items = is.map .ok ∧ ∀ i ∈ is, IsPush i := by
  rw [isPushOnly]
  induction (ScriptBuf.instructions script).items with
  | nil => exact iff_of_true rfl ⟨[], rfl, nofun⟩
  | cons item items ih =>
    rw [List.all_cons, Bool.and_eq_true, ih]
    constructor
    · rintro ⟨hitem, is, rfl, his⟩
      rcases item with e | bytes | opcode
      · cases hitem
      · exact ⟨.pushBytes bytes :: is, rfl, List.forall_mem_cons.2 ⟨trivial, his⟩⟩
      · have hle : opcode ≤ OP_PUSHNUM_16 := of_decide_eq_true hitem
        exact ⟨.op opcode :: is, rfl, List.forall_mem_cons.2 ⟨hle, his⟩⟩
    · rintro ⟨is, heq, his⟩
      cases is with
      | nil => cases heq
      | cons i is =>
        obtain ⟨rfl, hitems⟩ := List.cons_eq_cons.1 heq
        obtain ⟨hi, his⟩ := List.forall_mem_cons.1 his
        refine ⟨?_, is, hitems, his⟩
        cases i with
        | pushBytes bytes => rfl
        | op opcode =>
          have hle : opcode ≤ OP_PUSHNUM_16 := hi
          exact decide_eq_true hle

/-- All operations are pushes, there is no error, and the last operation is a data push. -/
theorem pushedScript_eq_some_iff {scriptSig script : ScriptBuf} : pushedScript scriptSig = some script ↔
    ∃ (is : List Instruction) (data : PushBytes),
      (ScriptBuf.instructions scriptSig).items = (is ++ [Instruction.pushBytes data]).map .ok ∧
        (∀ i ∈ is, IsPush i) ∧ data.bytes = script := by
  constructor
  · intro h
    rw [pushedScript, Option.ite_none_right_eq_some, isPushOnly_iff] at h
    obtain ⟨⟨is, hitems, his⟩, hlast⟩ := h
    obtain ⟨data, hdata, rfl⟩ := Option.map_eq_some_iff.1 hlast
    rcases List.eq_nil_or_concat is with rfl | ⟨is, i, rfl⟩
    · rw [lastPushdata, hitems] at hdata
      cases hdata
    · rw [List.concat_eq_append] at hitems his
      rw [lastPushdata, hitems, List.map_append, List.map_singleton, List.getLast?_concat] at hdata
      cases i with
      | op opcode => cases hdata
      | pushBytes bytes =>
        cases hdata
        exact ⟨is, data, hitems, fun i hi => his i (List.mem_append_left _ hi), rfl⟩
  · rintro ⟨is, data, hitems, his, rfl⟩
    have hpush : isPushOnly scriptSig = true := by
      refine isPushOnly_iff.2 ⟨_, hitems, fun i hi => ?_⟩
      rcases List.mem_append.1 hi with hi | hi
      · exact his i hi
      · obtain rfl := List.mem_singleton.1 hi
        trivial
    have hlast : lastPushdata scriptSig = some data := by
      rw [lastPushdata, hitems, List.map_append, List.map_singleton, List.getLast?_concat]
    rw [pushedScript, if_pos hpush, hlast]
    rfl

/-- The script that an input gives for the script hash it spends. -/
def redeemScript (spent : OutPoint → Option TxOut) (input : TxIn) : Option ScriptBuf := do
  let prevout ← spent input.previousOutput
  if isP2sh prevout.scriptPubkey then pushedScript input.scriptSig else none

/-- The witness program that an input spends, directly or through a script hash. -/
def witnessProgram (spent : OutPoint → Option TxOut) (input : TxIn) : Option ScriptBuf := do
  let prevout ← spent input.previousOutput
  if isWitnessProgram prevout.scriptPubkey then some prevout.scriptPubkey else redeemScript spent input

/-- The script that an input gives for the witness script hash it spends. -/
def witnessScript (spent : OutPoint → Option TxOut) (input : TxIn) : Option ScriptBuf := do
  let program ← witnessProgram spent input
  if isP2wsh program then input.witness.repr.elements.getLast? else none

/-- The legacy counts of all scriptSigs and output scripts. -/
def legacySigOps (tx : Transaction) : ℕ :=
  (tx.input.map fun input => Instructions.sigops input.scriptSig false).sum +
    (tx.output.map fun output => Instructions.sigops output.scriptPubkey false).sum

/-- `GetTransactionSigOpCost`, with `count` as the accurate count of a script. -/
def sigOpCost (count : ScriptBuf → ℕ) (tx : Transaction) (spent : OutPoint → Option TxOut) : ℕ :=
  4 * legacySigOps tx + 4 * ((tx.input.filterMap (redeemScript spent)).map count).sum +
    (tx.input.countP fun input => (witnessProgram spent input).any isP2wpkh) +
    ((tx.input.filterMap (witnessScript spent)).map count).sum

/-- The last push of a scriptSig that is not of pushes only, where a script hash is spent. -/
def strayScript (spent : OutPoint → Option TxOut) (input : TxIn) : Option ScriptBuf := do
  let prevout ← spent input.previousOutput
  if isP2sh prevout.scriptPubkey && !isPushOnly input.scriptSig then
    (lastPushdata input.scriptSig).map PushBytes.bytes
  else none

/-- What is counted that Core does not count. -/
def surplus (tx : Transaction) (spent : OutPoint → Option TxOut) : ℕ :=
  4 * ((tx.input.filterMap (strayScript spent)).map countSigops).sum

/-- The operations of a script that its accurate count misses. -/
def missed (script : ScriptBuf) : ℕ := Instructions.sigops script true - countSigops script

/-- What Core counts that is not counted. -/
def shortfall (tx : Transaction) (spent : OutPoint → Option TxOut) : ℕ :=
  4 * ((tx.input.filterMap (redeemScript spent)).map missed).sum +
    ((tx.input.filterMap (witnessScript spent)).map missed).sum

/-! ## Saturating sums -/

/-- A loop that adds with saturation ends with the sum, or with the limit. -/
theorem foldl_saturating {α : Type} {f : ℕ → α → ℕ} {g : α → ℕ}
    (hf : ∀ n ≤ USIZE_MAX, ∀ a, f n a = saturatingAdd n (g a)) (l : List α) {n : ℕ} (hn : n ≤ USIZE_MAX) :
    l.foldl f n = saturatingAdd n (l.map g).sum := by
  induction l generalizing n with
  | nil => exact (Nat.min_eq_left hn).symm
  | cons a l ih =>
    have hstep : saturatingAdd n (g a) ≤ USIZE_MAX := Nat.min_le_right _ _
    rw [List.foldl_cons, hf n hn, ih hstep, List.map_cons, List.sum_cons, saturatingAdd, saturatingAdd,
      saturatingAdd]
    omega

theorem foldlM_ok {ε α β : Type} {f : β → α → Outcome ε β} {g : β → α → β} {l : List α}
    (h : ∀ b, ∀ a ∈ l, f b a = .ok (g b a)) (b : β) : l.foldlM f b = .ok (l.foldl g b) := by
  induction l generalizing b with
  | nil => rfl
  | cons a l ih =>
    rw [List.foldlM_cons, h b a List.mem_cons_self, Outcome.ok_bind, List.foldl_cons]
    exact ih (fun b a ha => h b a (List.mem_cons_of_mem _ ha)) _

/-- The count of a script that may be missing. -/
def countOf (count : ScriptBuf → ℕ) (script : Option ScriptBuf) : ℕ := (script.map count).getD 0

theorem sum_filterMap {α : Type} (o : α → Option ScriptBuf) (count : ScriptBuf → ℕ) (l : List α) :
    ((l.filterMap o).map count).sum = (l.map fun a => countOf count (o a)).sum := by
  induction l with
  | nil => rfl
  | cons a l ih =>
    rw [List.map_cons, List.sum_cons, ← ih]
    cases h : o a with
    | none => rw [List.filterMap_cons_none h, countOf, Option.map_none, Option.getD_none, Nat.zero_add]
    | some script => rw [List.filterMap_cons_some h, List.map_cons, List.sum_cons]; rfl

theorem countP_eq_sum {α : Type} (p : α → Bool) (l : List α) :
    l.countP p = (l.map fun a => (p a).toNat).sum := by
  induction l with
  | nil => rfl
  | cons a l ih =>
    rw [List.countP_cons, List.map_cons, List.sum_cons, ih, Nat.add_comm]
    cases p a <;> rfl

/-! ## What is counted -/

theorem countP2pkP2pkhSigops_eq (tx : Transaction) :
    countP2pkP2pkhSigops tx = min (legacySigOps tx) USIZE_MAX := by
  have hlegacy (script : ScriptBuf) : countSigopsLegacy script = Instructions.sigops script false :=
    (countSigops_eq_iff script).2.2
  simp only [countP2pkP2pkhSigops, hlegacy]
  rw [foldl_saturating (fun _ _ _ => rfl) tx.input (Nat.zero_le _),
    foldl_saturating (fun _ _ _ => rfl) tx.output (n := saturatingAdd _ _) (Nat.min_le_right _ _), saturatingAdd,
    saturatingAdd, legacySigOps]
  omega

/-- An input that spends a script hash counts for the redeem script or for the stray one. -/
theorem p2shSigops_eq {spent : OutPoint → Option TxOut} {input : TxIn} {prevout : TxOut}
    (h : spent input.previousOutput = some prevout) :
    p2shSigops prevout input = min (countOf countSigops (redeemScript spent input) +
      countOf countSigops (strayScript spent input)) USIZE_MAX := by
  simp only [p2shSigops, redeemScript, strayScript, pushedScript, h, Option.bind_eq_bind, Option.bind_some]
  cases isP2sh prevout.scriptPubkey with
  | false => rfl
  | true =>
    cases isPushOnly input.scriptSig <;> cases lastPushdata input.scriptSig <;>
      simp [countOf, saturatingAdd]

theorem countP2shSigops_eq (tx : Transaction) (spent : OutPoint → Option TxOut) :
    countP2shSigops tx spent = min (((tx.input.filterMap (redeemScript spent)).map countSigops).sum +
      ((tx.input.filterMap (strayScript spent)).map countSigops).sum) USIZE_MAX := by
  have hstep (n : ℕ) (hn : n ≤ USIZE_MAX) (input : TxIn) :
      (match spent input.previousOutput with
        | some prevout => saturatingAdd n (p2shSigops prevout input)
        | none => n) = saturatingAdd n (countOf countSigops (redeemScript spent input) +
          countOf countSigops (strayScript spent input)) := by
    cases h : spent input.previousOutput with
    | none =>
      simp only [redeemScript, strayScript, h, Option.bind_eq_bind, Option.bind_none]
      exact (Nat.min_eq_left hn).symm
    | some prevout =>
      dsimp only
      rw [p2shSigops_eq h, saturatingAdd, saturatingAdd]
      omega
  rw [countP2shSigops, foldl_saturating hstep tx.input (Nat.zero_le _), saturatingAdd, Nat.zero_add,
    List.sum_map_add, sum_filterMap, sum_filterMap]

/-- The last element of a witness is found, as it lies in a vector of at most `isize::MAX` bytes. -/
theorem last_eq {witness : Witness} (h : witness.repr.content.length < 2 ^ 63) :
    witness.repr.last = .ok witness.repr.elements.getLast? := by
  obtain ⟨elems, hpackable, hrepr⟩ := witness.packed
  have hholds : witness.repr.Holds elems := ⟨hrepr, hpackable, h⟩
  rw [hholds.last_eq, hrepr, elements_pack hpackable]

theorem sigopsWithWitnessProgram_eq {witness : Witness} (h : witness.repr.content.length < 2 ^ 63)
    (program : ScriptBuf) : sigopsWithWitnessProgram witness program = .ok ((isP2wpkh program).toNat +
      countOf countSigops (if isP2wsh program then witness.repr.elements.getLast? else none)) := by
  rw [sigopsWithWitnessProgram, last_eq h]
  by_cases hkey : isP2wpkh program
  · have hscript : isP2wsh program = false := by
      rw [isP2wpkh, isVersionedPush, Bool.and_eq_true, Bool.and_eq_true, beq_iff_eq] at hkey
      rw [isP2wsh, isVersionedPush, hkey.1.1]
      rfl
    rw [if_pos hkey, hkey, hscript]
    rfl
  · rw [if_neg hkey, (Bool.not_eq_true _).mp hkey]
    split_ifs <;> simp [countOf]

/-- An input counts for the witness program that it spends. -/
theorem witnessSigops_eq {spent : OutPoint → Option TxOut} {input : TxIn} {prevout : TxOut}
    (hprevout : spent input.previousOutput = some prevout)
    (h : input.witness.repr.content.length < 2 ^ 63) :
    witnessSigops prevout input = .ok (((witnessProgram spent input).any isP2wpkh).toNat +
      countOf countSigops (witnessScript spent input)) := by
  simp only [witnessSigops, witnessScript, witnessProgram, redeemScript, pushedScript, hprevout,
    Option.bind_eq_bind, Option.bind_some]
  cases isWitnessProgram prevout.scriptPubkey with
  | true => exact sigopsWithWitnessProgram_eq h _
  | false =>
    cases isP2sh prevout.scriptPubkey with
    | false => rfl
    | true =>
      cases isPushOnly input.scriptSig with
      | false => rfl
      | true =>
        cases lastPushdata input.scriptSig with
        | none => rfl
        | some pushBytes => exact sigopsWithWitnessProgram_eq h _

theorem countWitnessSigops_eq {tx : Transaction} (spent : OutPoint → Option TxOut)
    (h : ∀ input ∈ tx.input, input.witness.repr.content.length < 2 ^ 63) :
    countWitnessSigops tx spent = .ok (min ((tx.input.countP fun input =>
      (witnessProgram spent input).any isP2wpkh) +
        ((tx.input.filterMap (witnessScript spent)).map countSigops).sum) USIZE_MAX) := by
  have hstep (n : ℕ) (input : TxIn) (hinput : input ∈ tx.input) :
      (match spent input.previousOutput with
        | some prevout => do return saturatingAdd n (← witnessSigops prevout input)
        | none => return n) = (.ok (match spent input.previousOutput with
          | some _ => saturatingAdd n (((witnessProgram spent input).any isP2wpkh).toNat +
              countOf countSigops (witnessScript spent input))
          | none => n) : Outcome Empty ℕ) := by
    cases hprevout : spent input.previousOutput with
    | none => rfl
    | some prevout =>
      dsimp only
      rw [witnessSigops_eq hprevout (h input hinput)]
      rfl
  have hadd (n : ℕ) (hn : n ≤ USIZE_MAX) (input : TxIn) :
      (match spent input.previousOutput with
        | some _ => saturatingAdd n (((witnessProgram spent input).any isP2wpkh).toNat +
            countOf countSigops (witnessScript spent input))
        | none => n) = saturatingAdd n (((witnessProgram spent input).any isP2wpkh).toNat +
          countOf countSigops (witnessScript spent input)) := by
    cases hprevout : spent input.previousOutput with
    | none =>
      simp only [witnessProgram, witnessScript, hprevout, Option.bind_eq_bind, Option.bind_none]
      exact (Nat.min_eq_left hn).symm
    | some prevout => rfl
  rw [countWitnessSigops, foldlM_ok hstep, foldl_saturating hadd tx.input (Nat.zero_le _), saturatingAdd,
    Nat.zero_add, List.sum_map_add, sum_filterMap, countP_eq_sum]

/-! ## The comparison -/

theorem totalSigopCost_eq {tx : Transaction} (spent : OutPoint → Option TxOut)
    (h : ∀ input ∈ tx.input, input.witness.repr.content.length < 2 ^ 63) :
    totalSigopCost tx spent = .ok (min (sigOpCost countSigops tx spent + surplus tx spent) USIZE_MAX) := by
  rw [totalSigopCost, countWitnessSigops_eq spent h, countP2pkP2pkhSigops_eq, countP2shSigops_eq, sigOpCost,
    surplus]
  simp only [Outcome.ok_bind, Outcome.pure_eq_ok, Outcome.ok.injEq, saturatingAdd, saturatingMul]
  omega

theorem sigops_eq_add_missed (script : ScriptBuf) :
    Instructions.sigops script true = countSigops script + missed script :=
  (Nat.add_sub_cancel' (countSigops_eq_iff script).1).symm

/-- The cost with Core's accurate count. -/
theorem sigOpCost_sigops (tx : Transaction) (spent : OutPoint → Option TxOut) :
    sigOpCost (Instructions.sigops · true) tx spent = sigOpCost countSigops tx spent + shortfall tx spent := by
  simp only [sigOpCost, shortfall, sigops_eq_add_missed, List.sum_map_add]
  omega

theorem sum_eq_zero_iff {l : List ℕ} : l.sum = 0 ↔ ∀ n ∈ l, n = 0 := by
  induction l with
  | nil => simp
  | cons n l ih => rw [List.sum_cons, Nat.add_eq_zero_iff, ih, List.forall_mem_cons]

theorem surplus_eq_zero_iff (tx : Transaction) (spent : OutPoint → Option TxOut) :
    surplus tx spent = 0 ↔
      ∀ input ∈ tx.input, ∀ script, strayScript spent input = some script → countSigops script = 0 := by
  rw [surplus, Nat.mul_eq_zero, sum_eq_zero_iff]
  simp only [List.forall_mem_map, List.mem_filterMap]
  constructor
  · intro h input hinput script hscript
    exact (h.resolve_left (by decide)) script ⟨input, hinput, hscript⟩
  · rintro h
    refine .inr ?_
    rintro script ⟨input, hinput, hscript⟩
    exact h input hinput script hscript

theorem min_eq_min_iff {a b m : ℕ} : min a m = min b m ↔ a = b ∨ m ≤ a ∧ m ≤ b := by omega

/-- The cost is the one of Core exactly if the stray scripts count for as much as the accurate counts miss, up to
saturation; and with the accurate count of the crate, exactly if the stray scripts have no signature operations. -/
theorem totalSigopCost_iff (tx : Transaction) (spent : OutPoint → Option TxOut)
    (h : ∀ input ∈ tx.input, input.witness.repr.content.length < 2 ^ 63) :
    (totalSigopCost tx spent = .ok (min (sigOpCost (Instructions.sigops · true) tx spent) USIZE_MAX) ↔
      surplus tx spent = shortfall tx spent ∨
        USIZE_MAX ≤ sigOpCost countSigops tx spent + min (surplus tx spent) (shortfall tx spent)) ∧
    (totalSigopCost tx spent = .ok (min (sigOpCost countSigops tx spent) USIZE_MAX) ↔
      (∀ input ∈ tx.input, ∀ script, strayScript spent input = some script → countSigops script = 0) ∨
        USIZE_MAX ≤ sigOpCost countSigops tx spent) := by
  rw [totalSigopCost_eq spent h, sigOpCost_sigops, Outcome.ok.injEq, Outcome.ok.injEq, min_eq_min_iff,
    min_eq_min_iff, ← surplus_eq_zero_iff]
  omega

/-- A script hash is spent by a scriptSig of pushes and `OP_NOP`. -/
def strayInput : TxIn where
  previousOutput := ⟨U8Array.replicate 32 1, 0⟩
  scriptSig := [OP_NOP, 0x01, OP_CHECKSIG]
  sequence := 0xffffffff
  witness := Witness.new

/-- The same with pushes only. -/
def pushedInput : TxIn := { strayInput with scriptSig := [0x01, OP_CHECKSIG] }

def scriptHashOutput : TxOut := ⟨50, ScriptBuf.newP2sh (U8Array.replicate 20 7)⟩

def spending (input : TxIn) : Transaction := ⟨2, LockTime.fromConsensus 0, [input], []⟩

theorem totalSigopCost_iff_sample :
    totalSigopCost (spending pushedInput) (fun _ => some scriptHashOutput) =
        .ok (min (sigOpCost (Instructions.sigops · true) (spending pushedInput) fun _ => some scriptHashOutput)
          USIZE_MAX) ∧
      totalSigopCost (spending pushedInput) (fun _ => some scriptHashOutput) = .ok 4 :=
  ⟨(totalSigopCost_iff (spending pushedInput) (fun _ => some scriptHashOutput) (by decide +kernel)).1.2
    (by decide +kernel), by decide +kernel⟩

/-- The redeem script is counted, although the scriptSig is not of pushes only. -/
theorem totalSigopCost_stray :
    totalSigopCost (spending strayInput) (fun _ => some scriptHashOutput) = .ok 4 ∧
      sigOpCost (Instructions.sigops · true) (spending strayInput) (fun _ => some scriptHashOutput) = 0 ∧
      sigOpCost countSigops (spending strayInput) (fun _ => some scriptHashOutput) = 0 ∧
      totalSigopCost (spending strayInput) (fun _ => some scriptHashOutput) ≠
        .ok (min (sigOpCost (Instructions.sigops · true) (spending strayInput) fun _ => some scriptHashOutput)
          USIZE_MAX) := by
  decide +kernel

end Transaction

end RustDogecoin
