import RustDogecoin.Blockdata.InstructionRuns

/-!
# Skipping instructions

`InstructionIndices` has an `nth` of its own, which moves the position once for all instructions that it
skips.  The position that it reports is the one before the first of them, so it goes with as many calls
of `next` only where there is nothing to report or nothing to skip (`nth_eq_iff`).
-/

namespace RustDogecoin

namespace Instructions

theorem done_of_data_eq_nil {it : Instructions} (h : it.data = []) : Iteration.Done next it := by
  obtain ⟨data, m⟩ := it
  subst h
  exact next_nil m

theorem done_of_next_eq_none {it it' : Instructions} (h : it.next = (none, it')) :
    Iteration.Done next it' := by
  have hdone := done_of_data_eq_nil (next_eq_none_iff.1 (congrArg Prod.fst h))
  rw [hdone] at h
  cases h
  exact hdone

/-- A call that finds something takes bytes. -/
theorem length_next_lt {it : Instructions} (h : it.data ≠ []) :
    it.next.2.data.length < it.data.length := by
  obtain ⟨data, m⟩ := it
  have hpos := List.length_pos_iff.2 h
  rcases next_cases h m with ⟨raw, rest, i, rfl, hnext, hi⟩ | ⟨e, hnext⟩
  · have hraw := List.length_pos_iff.2 hi.ne_nil
    rw [hnext]
    simp only [List.length_append]
    omega
  · rw [hnext]
    exact hpos

theorem length_after_lt {it : Instructions} (h : it.data ≠ []) {n : ℕ} (hn : n ≠ 0) :
    (Iteration.after next n it).data.length < it.data.length := by
  obtain ⟨n, rfl⟩ := Nat.exists_eq_succ_of_ne_zero hn
  exact (length_after_le n it.next.2).trans_lt (length_next_lt h)

theorem data_after_of_item_eq_none {it : Instructions} {n : ℕ} (h : Iteration.item next n it = none) :
    (Iteration.after next (n + 1) it).data = [] := by
  have hnil : (Iteration.after next n it).data = [] := next_eq_none_iff.1 h
  have hdone := done_of_data_eq_nil hnil
  rw [Iteration.after_succ', hdone]
  exact hnil

end Instructions

namespace InstructionIndices

/-- The override of `Iterator::nth`; `Instructions` has none. -/
def nth (self : InstructionIndices) (n : ℕ) :
    Option (Except ScriptError (ℕ × Instruction)) × InstructionIndices :=
  self.nextWith fun this =>
    let (instruction, instructions) := Iteration.nth Instructions.next n this.instructions
    (instruction, { this with instructions })

/-- The last of `n + 1` calls of `next`. -/
def nthNext (self : InstructionIndices) (n : ℕ) :
    Option (Except ScriptError (ℕ × Instruction)) × InstructionIndices :=
  (Iteration.item next n self, Iteration.after next (n + 1) self)

/-- What `nth` finds behind the instructions it skips, with the position before them. -/
theorem nth_eq (it : Instructions) (pos n : ℕ) : nth ⟨it, pos⟩ n =
    ((Iteration.item Instructions.next n it).map (Except.map fun i => (pos, i)),
      ⟨Iteration.after Instructions.next (n + 1) it,
        if (Iteration.item Instructions.next n it).isSome then
          pos + (it.data.length - (Iteration.after Instructions.next (n + 1) it).data.length)
        else pos⟩) := by
  have hnth := Iteration.nth_eq (fun s s' => @Instructions.done_of_next_eq_none s s') n it
  cases hitem : Iteration.item Instructions.next n it with
  | none => simp [nth, nextWith, hnth, hitem]
  | some x => simp only [nth, nextWith, hnth, hitem, remainingBytes, Option.map_some, Option.isSome_some,
      if_true]

theorem nthNext_eq (it : Instructions) (pos n : ℕ) : nthNext ⟨it, pos⟩ n =
    ((Iteration.item Instructions.next n it).map (Except.map fun i =>
        (pos + (it.data.length - (Iteration.after Instructions.next n it).data.length), i)),
      ⟨Iteration.after Instructions.next (n + 1) it,
        pos + (it.data.length - (Iteration.after Instructions.next (n + 1) it).data.length)⟩) := by
  rw [nthNext, item_eq, after_eq]

/-- Nothing is skipped, or nothing is left, or what comes behind the skipped instructions is an error. -/
def NothingToReport (self : InstructionIndices) (n : ℕ) : Prop :=
  n = 0 ∨ self.instructions.data = [] ∨
    ∃ e, Iteration.item Instructions.next n self.instructions = some (.error e)

/-- Where `nth` goes with `next`: the position of an instruction is that of the first one skipped, and
it is not moved on if there is none. -/
theorem nth_eq_nthNext_iff (self : InstructionIndices) (n : ℕ) :
    self.nth n = self.nthNext n ↔ self.NothingToReport n := by
  obtain ⟨it, pos⟩ := self
  rw [nth_eq, nthNext_eq, NothingToReport]
  constructor
  · intro h
    by_contra hno
    simp only [not_or, not_exists] at hno
    obtain ⟨hn, hdata, herror⟩ := hno
    have hpos := List.length_pos_iff.2 hdata
    cases hitem : Iteration.item Instructions.next n it with
    | none =>
      have hnil := Instructions.data_after_of_item_eq_none hitem
      simp only [hitem, hnil, Prod.mk.injEq, InstructionIndices.mk.injEq, List.length_nil] at h
      simp at h
      exact hdata h
    | some x =>
      cases x with
      | error e => exact herror e hitem
      | ok i =>
        have hlt := Instructions.length_after_lt hdata hn
        simp only [hitem, Option.map_some, Except.map, Prod.mk.injEq, Option.some.injEq,
          Except.ok.injEq] at h
        omega
  · intro hreport
    cases hitem : Iteration.item Instructions.next n it with
    | none =>
      have hdata : it.data = [] := by
        rcases hreport with rfl | hdata | ⟨e, herror⟩
        · exact Instructions.next_eq_none_iff.1 hitem
        · exact hdata
        · rw [hitem] at herror
          cases herror
      simp [hdata]
    | some x =>
      rcases hreport with rfl | hdata | ⟨e, herror⟩
      · simp
      · have hdone := Instructions.done_of_data_eq_nil hdata
        rw [hdone.item_eq] at hitem
        cases hitem
      · rw [hitem] at herror
        cases herror
        rfl

/-! ## Runs of calls -/

inductive Call where
  | next
  | nth (n : ℕ)

namespace Call

def run (self : InstructionIndices) :
    Call → Option (Except ScriptError (ℕ × Instruction)) × InstructionIndices
  | next => self.next
  | nth n => self.nth n

/-- The number of calls of `next` that the call stands for. -/
def count : Call → ℕ
  | next => 1
  | nth n => n + 1

/-- The call skips nothing that it would have to count for its report. -/
def Exact (self : InstructionIndices) : Call → Prop
  | next => True
  | nth n => self.NothingToReport n

end Call

/-- The answers to calls one after the other, and the state that they leave. -/
def runCalls (self : InstructionIndices) : List Call →
    List (Option (Except ScriptError (ℕ × Instruction))) × InstructionIndices
  | [] => ([], self)
  | call :: calls =>
    let (answer, self) := call.run self
    let (answers, self) := runCalls self calls
    (answer :: answers, self)

theorem runCalls_cons (self : InstructionIndices) (call : Call) (calls : List Call) :
    runCalls self (call :: calls) = ((call.run self).1 :: (runCalls (call.run self).2 calls).1,
      (runCalls (call.run self).2 calls).2) := rfl

/-- Every call of a run is exact in the state that it is made in. -/
def ExactCalls (self : InstructionIndices) : List Call → Prop
  | [] => True
  | call :: calls => call.Exact self ∧ ExactCalls (call.run self).2 calls

/-- The calls of `next`, counted from `k` on, whose answers a run should give. -/
def lastCalls (k : ℕ) : List Call → List ℕ
  | [] => []
  | call :: calls => (k + call.count - 1) :: lastCalls (k + call.count) calls

/-- The number of calls of `next` that a run stands for. -/
def countCalls (calls : List Call) : ℕ := (calls.map Call.count).sum

theorem Call.run_of_exact {self : InstructionIndices} {call : Call} (h : call.Exact self) :
    call.run self = self.nthNext (call.count - 1) := by
  cases call with
  | next => rfl
  | nth n => exact (nth_eq_nthNext_iff self n).2 h

/-- A run of exact calls is a run of `next`. -/
theorem runCalls_of_exact {start : InstructionIndices} {calls : List Call} {k : ℕ}
    (h : ExactCalls (Iteration.after next k start) calls) :
    runCalls (Iteration.after next k start) calls =
      ((lastCalls k calls).map fun j => Iteration.item next j start,
        Iteration.after next (k + countCalls calls) start) := by
  induction calls generalizing k with
  | nil => rfl
  | cons call calls ih =>
    obtain ⟨hcall, hcalls⟩ := h
    have hpos : call.count - 1 + 1 = call.count := by cases call <;> rfl
    have hlast : k + call.count - 1 = k + (call.count - 1) := by omega
    rw [Call.run_of_exact hcall, nthNext, hpos, ← Iteration.after_add] at hcalls
    rw [runCalls_cons, Call.run_of_exact hcall, nthNext, hpos, ← Iteration.after_add, ih hcalls,
      ← Iteration.item_add, lastCalls, List.map_cons, hlast, countCalls, countCalls, List.map_cons,
      List.sum_cons, Nat.add_assoc]

/-- In every state that calls of `next` and `nth` lead to, `nth` goes with `next` exactly where nothing
is skipped that counts; and a run of such calls gives the answers of `next`. -/
theorem nth_skips_exactly_iff (script : ScriptBuf) (m : Bool) :
    (∀ (calls : List Call) (n : ℕ), (runCalls (.fromInstructions ⟨script, m⟩) calls).2.nth n =
        (runCalls (.fromInstructions ⟨script, m⟩) calls).2.nthNext n ↔
      (runCalls (.fromInstructions ⟨script, m⟩) calls).2.NothingToReport n) ∧
    ∀ calls : List Call, ExactCalls (.fromInstructions ⟨script, m⟩) calls →
      runCalls (.fromInstructions ⟨script, m⟩) calls =
        ((lastCalls 0 calls).map fun k => Iteration.item next k (.fromInstructions ⟨script, m⟩),
          Iteration.after next (countCalls calls) (.fromInstructions ⟨script, m⟩)) := by
  refine ⟨fun calls n => nth_eq_nthNext_iff _ n, fun calls h => ?_⟩
  have hrun := @runCalls_of_exact (.fromInstructions ⟨script, m⟩) calls 0 h
  rwa [Nat.zero_add] at hrun

/-- The second of two opcodes is reported at the offset of the first. -/
theorem nth_reports_skipped_offset :
    (ScriptBuf.instructionIndices [0x51, 0x52]).nth 1 =
      (some (.ok (0, .op 0x52)), ⟨⟨[], false⟩, 2⟩) ∧
    (ScriptBuf.instructionIndices [0x51, 0x52]).nthNext 1 =
      (some (.ok (1, .op 0x52)), ⟨⟨[], false⟩, 2⟩) ∧
    (ScriptBuf.instructionIndices [0x51, 0x52]).nth 1 ≠
      (ScriptBuf.instructionIndices [0x51, 0x52]).nthNext 1 := by
  decide

end InstructionIndices

end RustDogecoin
