import RustDogecoin.Blockdata.Instruction

/-!
# Runs of the instruction iterators

A run takes a script apart into the bytes of its instructions, up to the end or up to an error
(`Trace`).  `InstructionIndices` returns the same instructions with the number of bytes before them, and
the iterator that enforces minimal pushes goes with the other one until a push is not the shortest
encoding of its data.
-/

namespace RustDogecoin

/-- The bytes that an instruction is read from. -/
def Instruction.Encodes (raw : Bytes) : Instruction → Prop
  | .op opcode => OP_PUSHDATA4 < opcode ∧ raw = [opcode]
  | .pushBytes data => ∃ form : PushForm, data.bytes.length < form.limit ∧
      raw = form.header data.bytes.length ++ data.bytes

theorem Instruction.Encodes.ne_nil {raw : Bytes} {i : Instruction} (h : i.Encodes raw) : raw ≠ [] := by
  cases i with
  | op opcode =>
    obtain ⟨-, rfl⟩ := h
    exact List.cons_ne_nil _ _
  | pushBytes data =>
    obtain ⟨form, -, rfl⟩ := h
    cases form <;> exact List.cons_ne_nil _ _

namespace Instructions

/-! ## One step -/

theorem next_nil (m : Bool) : next ⟨[], m⟩ = (none, ⟨[], m⟩) := rfl

theorem limit_le (form : PushForm) : form.limit ≤ 2 ^ 32 := by cases form <;> decide

/-- A call takes the bytes of an instruction off the script, or ends the iteration with an error. -/
theorem next_cases {data : Bytes} (h : data ≠ []) (m : Bool) :
    (∃ raw rest i, data = raw ++ rest ∧ next ⟨data, m⟩ = (some (.ok i), ⟨rest, m⟩) ∧
      Instruction.Encodes raw i) ∨
    ∃ e, next ⟨data, m⟩ = (some (.error e), ⟨[], m⟩) := by
  cases head_cases h with
  | op hop data => exact .inl ⟨_, data, _, rfl, next_op hop data m, hop, rfl⟩
  | push form hn tail =>
    rename_i n
    have hlt := hn.trans_le (limit_le form)
    rw [next_push hn]
    split_ifs
    · exact .inr ⟨_, rfl⟩
    · by_cases hle : n ≤ tail.length
      · have hlength : (tail.take n).length = n := List.length_take_of_le hle
        refine .inl ⟨form.header n ++ tail.take n, tail.drop n,
          .pushBytes ⟨tail.take n, hlength.trans_lt hlt⟩, ?_, takePush_of_le hlt hle m rfl, form, ?_, ?_⟩
        · rw [List.append_assoc, List.take_append_drop]
        · rwa [hlength]
        · show _ = form.header (tail.take n).length ++ tail.take n
          rw [hlength]
      · exact .inr ⟨_, takePush_of_lt hlt (Nat.lt_of_not_le hle) m⟩
  | cut hcut => exact .inr ⟨_, hcut m⟩

theorem next_eq_none_iff {it : Instructions} : it.next.1 = none ↔ it.data = [] := by
  obtain ⟨data, m⟩ := it
  constructor
  · intro hnone
    by_contra hne
    rcases next_cases hne m with ⟨raw, rest, i, -, hnext, -⟩ | ⟨e, hnext⟩ <;> simp [hnext] at hnone
  · rintro rfl
    rfl

/-- A call does not change the mode. -/
theorem next_enforceMinimal (data : Bytes) (m : Bool) :
    (next ⟨data, m⟩).2 = ⟨(next ⟨data, m⟩).2.data, m⟩ := by
  by_cases hnil : data = []
  · subst hnil
    rfl
  · rcases next_cases hnil m with ⟨raw, rest, i, -, hnext, -⟩ | ⟨e, hnext⟩ <;> rw [hnext]

theorem after_enforceMinimal (k : ℕ) (data : Bytes) (m : Bool) :
    Iteration.after next k ⟨data, m⟩ = ⟨(Iteration.after next k ⟨data, m⟩).data, m⟩ := by
  induction k with
  | zero => rfl
  | succ k ih =>
    rw [Iteration.after_succ', ih]
    exact next_enforceMinimal _ m

/-! ## Whole runs -/

/-- A run on a script: the instructions with their bytes, the error at the end if there is one, and what
of the script is left then. -/
inductive Trace (m : Bool) : Bytes → List (Bytes × Instruction) → Option ScriptError → Bytes → Prop
  | done : Trace m [] [] none []
  | error {data : Bytes} {e : ScriptError} : next ⟨data, m⟩ = (some (.error e), ⟨[], m⟩) →
    Trace m data [] (some e) data
  | step {raw data : Bytes} {i : Instruction} {pieces : List (Bytes × Instruction)}
    {err : Option ScriptError} {rest : Bytes} :
    next ⟨raw ++ data, m⟩ = (some (.ok i), ⟨data, m⟩) → Instruction.Encodes raw i →
    Trace m data pieces err rest → Trace m (raw ++ data) ((raw, i) :: pieces) err rest

theorem exists_trace (m : Bool) (data : Bytes) : ∃ pieces err rest, Trace m data pieces err rest := by
  induction hlen : data.length using Nat.strong_induction_on generalizing data with
  | _ n ih =>
    by_cases hnil : data = []
    · subst hnil
      exact ⟨_, _, _, .done⟩
    · rcases next_cases hnil m with ⟨raw, rest, i, rfl, hnext, hi⟩ | ⟨e, hnext⟩
      · have hpos := List.length_pos_iff.2 hi.ne_nil
        rw [List.length_append] at hlen
        obtain ⟨pieces, err, rest', ht⟩ := ih rest.length (by omega) rest rfl
        exact ⟨_, _, _, .step hnext hi ht⟩
      · exact ⟨_, _, _, .error hnext⟩

namespace Trace

variable {m : Bool} {data rest : Bytes} {pieces : List (Bytes × Instruction)} {err : Option ScriptError}

/-- The answers of a run: the instructions, and the error after them. -/
def items (pieces : List (Bytes × Instruction)) (err : Option ScriptError) :
    List (Except ScriptError Instruction) :=
  pieces.map (fun p => .ok p.2) ++ err.toList.map .error

theorem yields (h : Trace m data pieces err rest) :
    Iteration.Yields next ⟨data, m⟩ (items pieces err) ⟨[], m⟩ := by
  induction h with
  | done => exact .nil _
  | error hnext => exact .cons hnext (.nil _)
  | step hnext _ _ ih => exact .cons hnext ih

theorem item_eq (h : Trace m data pieces err rest) (k : ℕ) :
    Iteration.item next k ⟨data, m⟩ = (items pieces err)[k]? :=
  h.yields.item_eq (next_nil m) k

theorem encodes (h : Trace m data pieces err rest) : ∀ p ∈ pieces, p.2.Encodes p.1 := by
  induction h with
  | done => simp
  | error => simp
  | step _ hi _ ih => simpa using ⟨hi, fun raw i => ih (raw, i)⟩

/-- The bytes of the instructions from the `k`-th on, and what is left after them, are what the iterator
still has before the `k`-th call. -/
theorem data_after (h : Trace m data pieces err rest) {k : ℕ} (hk : k ≤ pieces.length) :
    (Iteration.after next k ⟨data, m⟩).data = ((pieces.map Prod.fst).drop k).flatten ++ rest := by
  induction h generalizing k with
  | done =>
    obtain rfl := Nat.le_zero.1 hk
    rfl
  | error =>
    obtain rfl := Nat.le_zero.1 hk
    rfl
  | step hnext hi ht ih =>
    cases k with
    | zero =>
      have hdata := ih (Nat.zero_le _)
      rw [Iteration.after_zero] at hdata
      simpa using hdata
    | succ k =>
      rw [Iteration.after_succ, hnext, List.map_cons, List.drop_succ_cons]
      exact ih (Nat.le_of_succ_le_succ hk)

theorem whole (h : Trace m data pieces err rest) : data = (pieces.map Prod.fst).flatten ++ rest := by
  simpa using h.data_after (Nat.zero_le _)

theorem rest_eq_nil_iff (h : Trace m data pieces err rest) : rest = [] ↔ err = none := by
  induction h with
  | done => simp
  | error hnext =>
    refine iff_of_false ?_ (Option.some_ne_none _)
    rintro rfl
    rw [next_nil] at hnext
    cases hnext
  | step _ _ _ ih => exact ih

end Trace

/-! ## Minimal pushes -/

/-- The script goes on with a push which, whatever its data are as far as the script is cut off, is not
the shortest encoding of them. -/
def NotShortest (data : Bytes) : Prop :=
  ∃ (form : PushForm) (n : ℕ) (tail : Bytes), n < form.limit ∧ data = form.header n ++ tail ∧
    ∀ pushed : Bytes, pushed.length = n → tail.take n <+: pushed →
      ¬ Shortest (form.header n ++ pushed) pushed

/-- The check of the iterator is exact: what it lets pass can be completed to a shortest push. -/
theorem nonMinimal_iff {form : PushForm} {n : ℕ} (hn : n < form.limit) (tail : Bytes) :
    NonMinimal form n tail ↔ ∀ pushed : Bytes, pushed.length = n → tail.take n <+: pushed →
      ¬ Shortest (form.header n ++ pushed) pushed := by
  constructor
  · rintro hnon pushed rfl hprefix hshortest
    obtain ⟨hmin, hnum⟩ := (shortest_iff hn).1 hshortest
    rcases hnon with hlt | ⟨hone, b, hb, hbyte⟩
    · omega
    · obtain ⟨tail, rfl⟩ := List.head?_eq_some_iff.1 hb
      obtain ⟨c, rfl⟩ := List.length_eq_one_iff.1 hone
      rw [hone, List.take_succ_cons, List.cons_prefix_cons] at hprefix
      obtain ⟨rfl, -⟩ := hprefix
      exact hnum ⟨b, rfl, hbyte⟩
  · intro hall
    by_contra hnon
    obtain ⟨hmin, hnum⟩ := not_or.1 hnon
    -- zeros for the data that are cut off
    have hlength : (tail.take n ++ List.replicate (n - tail.length) 0).length = n := by
      rw [List.length_append, List.length_take, List.length_replicate]
      omega
    apply hall _ hlength (List.prefix_append _ _)
    have hshortest := shortest_iff (hlength.trans_lt hn)
    rw [hlength] at hshortest
    refine hshortest.2 ⟨Nat.le_of_not_lt hmin, ?_⟩
    rintro ⟨b, hb, hbyte⟩
    rw [hb] at hlength
    obtain rfl := hlength
    cases tail with
    | nil =>
      obtain rfl : (0 : UInt8) = b := by simpa using hb
      revert hbyte
      decide
    | cons c tail =>
      obtain rfl : c = b := by simpa using hb
      exact hnum ⟨rfl, c, rfl, hbyte⟩

/-- The two modes differ by the check only. -/
theorem next_minimal (data : Bytes) :
    (NotShortest data → next ⟨data, true⟩ = (some (.error .nonMinimalPush), ⟨[], true⟩)) ∧
    (¬ NotShortest data →
      next ⟨data, true⟩ = ((next ⟨data, false⟩).1, ⟨(next ⟨data, false⟩).2.data, true⟩)) := by
  constructor
  · rintro ⟨form, n, tail, hn, rfl, hall⟩
    rw [next_push hn, if_pos ⟨rfl, (nonMinimal_iff hn tail).2 hall⟩]
  · intro hshortest
    by_cases hnil : data = []
    · subst hnil
      rfl
    cases head_cases hnil with
    | op hop data => rw [next_op hop, next_op hop]
    | push form hn tail =>
      rename_i n
      have hnon : ¬ NonMinimal form n tail := fun hnon =>
        hshortest ⟨form, n, tail, hn, rfl, (nonMinimal_iff hn tail).1 hnon⟩
      rw [next_push hn, next_push hn, if_neg fun h => hnon h.2, if_neg fun h => Bool.false_ne_true h.1]
      have hlt := hn.trans_le (limit_le form)
      by_cases hle : n ≤ tail.length
      · let bytes : PushBytes := ⟨tail.take n, (List.length_take_le _ _).trans_lt hlt⟩
        have hbytes : bytes.bytes = tail.take n := rfl
        rw [takePush_of_le hlt hle true hbytes, takePush_of_le hlt hle false hbytes]
      · rw [takePush_of_lt hlt (Nat.lt_of_not_le hle), takePush_of_lt hlt (Nat.lt_of_not_le hle)]
    | cut hcut => rw [hcut true, hcut false]

/-- As long as all pushes are the shortest, the two iterators are at the same place. -/
theorem after_minimal {script : ScriptBuf} {k : ℕ}
    (h : ∀ j < k, ¬ NotShortest (Iteration.after next j (ScriptBuf.instructions script)).data) :
    Iteration.after next k (ScriptBuf.instructionsMinimal script) =
      ⟨(Iteration.after next k (ScriptBuf.instructions script)).data, true⟩ := by
  induction k with
  | zero => rfl
  | succ k ih =>
    have hnext := (next_minimal _).2 (h k (Nat.lt_succ_self k))
    have hmode : Iteration.after next k (ScriptBuf.instructions script) =
        ⟨(Iteration.after next k (ScriptBuf.instructions script)).data, false⟩ :=
      after_enforceMinimal k script false
    rw [Iteration.after_succ', ih fun j hj => h j (Nat.lt_succ_of_lt hj), hnext, Iteration.after_succ',
      ← hmode]

/-- Where the data are all there, the push in front is what counts. -/
theorem notShortest_append_iff {raw : Bytes} {i : Instruction} (hi : i.Encodes raw) (data : Bytes) :
    NotShortest (raw ++ data) ↔ ∃ d, i = .pushBytes d ∧ ¬ Shortest raw d.bytes := by
  cases i with
  | op opcode =>
    obtain ⟨hop, rfl⟩ := hi
    refine iff_of_false (fun hnot => ?_) (by simp)
    have herror := (next_minimal _).1 hnot
    rw [List.singleton_append, next_op hop] at herror
    cases herror
  | pushBytes d =>
    obtain ⟨form, hn, rfl⟩ := hi
    have htake : (d.bytes ++ data).take d.bytes.length = d.bytes := List.take_left' rfl
    simp only [Instruction.pushBytes.injEq, exists_eq_left']
    constructor
    · intro hnot
      have herror := (next_minimal _).1 hnot
      have hnon : NonMinimal form d.bytes.length (d.bytes ++ data) := by
        by_contra hnon
        rw [List.append_assoc, next_push hn, if_neg fun h => hnon h.2,
          takePush_of_le (hn.trans_le (limit_le form)) (by simp) true htake.symm] at herror
        cases herror
      apply (nonMinimal_iff hn _).1 hnon d.bytes rfl
      simp only [htake, List.prefix_refl]
    · intro hshortest
      refine ⟨form, _, d.bytes ++ data, hn, List.append_assoc _ _ _, fun pushed hlength hprefix => ?_⟩
      rw [htake] at hprefix
      obtain rfl := hprefix.eq_of_length hlength.symm
      exact hshortest

/-! ## Offsets -/

theorem length_next_le (data : Bytes) (m : Bool) : (next ⟨data, m⟩).2.data.length ≤ data.length := by
  by_cases hnil : data = []
  · subst hnil
    exact le_rfl
  · rcases next_cases hnil m with ⟨raw, rest, i, rfl, hnext, -⟩ | ⟨e, hnext⟩ <;> rw [hnext] <;> simp

theorem length_after_le (k : ℕ) (it : Instructions) :
    (Iteration.after next k it).data.length ≤ it.data.length := by
  induction k with
  | zero => exact le_rfl
  | succ k ih =>
    rw [Iteration.after_succ']
    exact (length_next_le _ _).trans ih

end Instructions

namespace InstructionIndices

open Instructions

/-- The same answer with the position, which moves on by the bytes that were taken. -/
theorem next_eq (it : Instructions) (pos : ℕ) :
    next ⟨it, pos⟩ = (it.next.1.map (Except.map fun i => (pos, i)),
      ⟨it.next.2, pos + (it.data.length - it.next.2.data.length)⟩) := by
  obtain ⟨data, m⟩ := it
  by_cases hnil : data = []
  · subst hnil
    rfl
  · rcases next_cases hnil m with ⟨raw, rest, i, -, hnext, -⟩ | ⟨e, hnext⟩
    · simp only [next, nextWith, hnext, remainingBytes, Option.map_some]
    · simp only [next, nextWith, hnext, remainingBytes, Option.map_some]

/-- The position counts the bytes that are no longer there. -/
theorem after_eq (k : ℕ) (it : Instructions) (pos : ℕ) :
    Iteration.after next k ⟨it, pos⟩ = ⟨Iteration.after Instructions.next k it,
      pos + (it.data.length - (Iteration.after Instructions.next k it).data.length)⟩ := by
  induction k with
  | zero => simp
  | succ k ih =>
    have hle := length_after_le k it
    have hle' : (Iteration.after Instructions.next k it).next.2.data.length ≤
      (Iteration.after Instructions.next k it).data.length := length_next_le _ _
    rw [Iteration.after_succ', Iteration.after_succ', ih, next_eq]
    apply congrArg (InstructionIndices.mk _)
    omega

theorem item_eq (k : ℕ) (it : Instructions) (pos : ℕ) :
    Iteration.item next k ⟨it, pos⟩ = (Iteration.item Instructions.next k it).map
      (Except.map fun i =>
        (pos + (it.data.length - (Iteration.after Instructions.next k it).data.length), i)) := by
  rw [Iteration.item, after_eq, next_eq]
  rfl

end InstructionIndices

namespace Instructions

/-! ## The iterators on a whole script -/

/-- A script is taken apart into `pieces`, the bytes of its instructions, and what is left when the
iteration ends. -/
structure Laws (m : Bool) (script : Bytes) (pieces : List (Bytes × Instruction)) (err : Option ScriptError)
    (rest : Bytes) : Prop where
  answers : ∀ k, Iteration.item next k ⟨script, m⟩ = (Trace.items pieces err)[k]?
  encodes : ∀ p ∈ pieces, p.2.Encodes p.1
  ne_nil : ∀ p ∈ pieces, p.1 ≠ []
  whole : script = (pieces.map Prod.fst).flatten ++ rest
  data_after : ∀ k ≤ pieces.length,
    (Iteration.after next k ⟨script, m⟩).data = ((pieces.map Prod.fst).drop k).flatten ++ rest
  complete : rest = [] ↔ err = none
  indices : ∀ k, Iteration.item InstructionIndices.next k (.fromInstructions ⟨script, m⟩) =
    (Iteration.item next k ⟨script, m⟩).map
      (Except.map fun i => (((pieces.map Prod.fst).take k).flatten.length, i))

/-- The offset of the `k`-th instruction is the number of bytes of those before it. -/
theorem Trace.indices {m : Bool} {script rest : Bytes} {pieces : List (Bytes × Instruction)}
    {err : Option ScriptError} (h : Trace m script pieces err rest) (k : ℕ) :
    Iteration.item InstructionIndices.next k (.fromInstructions ⟨script, m⟩) =
      (Iteration.item next k ⟨script, m⟩).map
        (Except.map fun i => (((pieces.map Prod.fst).take k).flatten.length, i)) := by
  rw [InstructionIndices.fromInstructions, InstructionIndices.item_eq, h.item_eq]
  by_cases hk : k < pieces.length
  · have hsplit := List.take_append_drop k (pieces.map Prod.fst)
    have hlength : script.length = ((pieces.map Prod.fst).take k).flatten.length +
        (Iteration.after next k ⟨script, m⟩).data.length := by
      rw [h.data_after (Nat.le_of_lt hk), ← List.length_append, ← List.append_assoc, ← List.flatten_append,
        hsplit, ← h.whole]
    rw [hlength, Nat.add_sub_cancel, Nat.zero_add]
  · -- no instruction any more, and the error has no offset
    have hitem : (Trace.items pieces err)[k]? = (err.toList.map Except.error)[k - pieces.length]? := by
      rw [Trace.items, List.getElem?_append_right (by simpa using Nat.le_of_not_lt hk), List.length_map]
    rw [hitem, List.getElem?_map]
    cases err.toList[k - pieces.length]? <;> rfl

theorem Trace.laws {m : Bool} {script rest : Bytes} {pieces : List (Bytes × Instruction)}
    {err : Option ScriptError} (h : Trace m script pieces err rest) : Laws m script pieces err rest where
  answers := h.item_eq
  encodes := h.encodes
  ne_nil p hp := (h.encodes p hp).ne_nil
  whole := h.whole
  data_after _ hk := h.data_after hk
  complete := h.rest_eq_nil_iff
  indices := h.indices

/-- Each mode yields the instructions that a script is made of, with their offsets, up to an error.  The
modes agree up to the first push that is not the shortest encoding of its data. -/
theorem iteration_laws (script : ScriptBuf) :
    (∀ m, ∃ pieces err rest, Laws m script pieces err rest) ∧
    (∀ k, (∀ j < k, ¬ NotShortest (Iteration.after next j (ScriptBuf.instructions script)).data) →
      (Iteration.after next k (ScriptBuf.instructionsMinimal script)).data =
        (Iteration.after next k (ScriptBuf.instructions script)).data ∧
      (NotShortest (Iteration.after next k (ScriptBuf.instructions script)).data →
        Iteration.item next k (ScriptBuf.instructionsMinimal script) = some (.error .nonMinimalPush)) ∧
      (¬ NotShortest (Iteration.after next k (ScriptBuf.instructions script)).data →
        Iteration.item next k (ScriptBuf.instructionsMinimal script) =
          Iteration.item next k (ScriptBuf.instructions script))) ∧
    ∀ (raw : Bytes) (data : Bytes) (i : Instruction), i.Encodes raw →
      (NotShortest (raw ++ data) ↔ ∃ d, i = .pushBytes d ∧ ¬ Shortest raw d.bytes) := by
  refine ⟨fun m => ?_, fun k hk => ?_, fun raw data i hi => notShortest_append_iff hi data⟩
  · obtain ⟨pieces, err, rest, h⟩ := exists_trace m script
    exact ⟨pieces, err, rest, h.laws⟩
  · have hafter := after_minimal hk
    have hmode : Iteration.after next k (ScriptBuf.instructions script) =
        ⟨(Iteration.after next k (ScriptBuf.instructions script)).data, false⟩ :=
      after_enforceMinimal k script false
    obtain ⟨hnot, hshortest⟩ := next_minimal (Iteration.after next k (ScriptBuf.instructions script)).data
    refine ⟨by rw [hafter], fun h => ?_, fun h => ?_⟩
    · rw [Iteration.item, hafter, hnot h]
    · rw [Iteration.item, hafter, hshortest h, Iteration.item, hmode]

/-- `01 aa 51` is a push of one byte and an opcode. -/
example : Iteration.item InstructionIndices.next 1 (ScriptBuf.instructionIndices [0x01, 0xaa, 0x51]) =
    some (.ok (2, .op 0x51)) := by decide

/-- `4c 01 69` would be shorter as `01 69`. -/
example : Iteration.item InstructionIndices.next 1
    (ScriptBuf.instructionIndicesMinimal [0x51, 0x4c, 0x01, 0x69, 0xb2]) =
      some (.error .nonMinimalPush) := by decide

end Instructions

end RustDogecoin
