import RustDogecoin.Blockdata.InstructionRuns

/-!
# The instructions of a script

`items` lists what an iterator yields up to its end.  A list of instructions comes from a script without
error exactly if the script is made of their bytes, one behind the other, and in minimal mode the bytes of
each push are the shortest (`items_eq_map_ok_iff`).
-/

namespace RustDogecoin

/-- The bytes that an instruction is read from in a mode. -/
def Instruction.Reads (m : Bool) (raw : Bytes) (i : Instruction) : Prop :=
  i.Encodes raw ∧ (m = true → ∀ d, i = .pushBytes d → Shortest raw d.bytes)

namespace Instructions

/-- An answer of the iterator. -/
abbrev Item := Except ScriptError Instruction

/-- The answers of the iterator up to its end; each takes a byte or more. -/
def items (it : Instructions) : List Item :=
  Iteration.collect next it.data.length it

/-- The override of `Iterator::size_hint`: there will not be more instructions than bytes. -/
def sizeHint (it : Instructions) : ℕ × Option ℕ :=
  if it.data.length = 0 then (0, some 0) else (1, some it.data.length)

/-! ## One instruction -/

/-- The bytes of an instruction are read as the instruction, whatever comes behind them. -/
theorem next_encodes {raw : Bytes} {i : Instruction} (hi : i.Encodes raw) (data : Bytes) :
    next ⟨raw ++ data, false⟩ = (some (.ok i), ⟨data, false⟩) := by
  cases i with
  | op opcode =>
    obtain ⟨hop, rfl⟩ := hi
    exact next_op hop data false
  | pushBytes d =>
    obtain ⟨form, hn, rfl⟩ := hi
    have htake : d.bytes = (d.bytes ++ data).take d.bytes.length := (List.take_left' rfl).symm
    rw [List.append_assoc, next_push hn, if_neg fun h => Bool.false_ne_true h.1,
      takePush_of_le (hn.trans_le (limit_le form)) (by simp) false htake, List.drop_left' rfl]

theorem next_reads {m : Bool} {raw : Bytes} {i : Instruction} (h : i.Reads m raw) (data : Bytes) :
    next ⟨raw ++ data, m⟩ = (some (.ok i), ⟨data, m⟩) := by
  obtain ⟨hi, hshortest⟩ := h
  cases m with
  | false => exact next_encodes hi data
  | true =>
    have hnot : ¬NotShortest (raw ++ data) := by
      rw [notShortest_append_iff hi]
      rintro ⟨d, rfl, hlonger⟩
      exact hlonger (hshortest rfl d rfl)
    rw [(next_minimal _).2 hnot, next_encodes hi]

theorem reads_of_next {m : Bool} {raw data : Bytes} {i : Instruction} (hi : i.Encodes raw)
    (h : next ⟨raw ++ data, m⟩ = (some (.ok i), ⟨data, m⟩)) : i.Reads m raw := by
  refine ⟨hi, ?_⟩
  rintro rfl d rfl
  by_contra hlonger
  have herror := (next_minimal _).1 ((notShortest_append_iff hi data).2 ⟨d, rfl, hlonger⟩)
  rw [h] at herror
  cases herror

/-! ## Runs -/

namespace Trace

variable {m : Bool} {data rest : Bytes} {pieces : List (Bytes × Instruction)} {err : Option ScriptError}

theorem reads (h : Trace m data pieces err rest) : ∀ p ∈ pieces, p.2.Reads m p.1 := by
  induction h with
  | done => simp
  | error => simp
  | step hnext hi _ ih => simpa using ⟨reads_of_next hi hnext, fun raw i => ih (raw, i)⟩

/-- Instructions in front of a script are yielded first. -/
theorem append {before : List (Bytes × Instruction)} (hbefore : ∀ p ∈ before, p.2.Reads m p.1)
    (h : Trace m data pieces err rest) :
    Trace m ((before.map Prod.fst).flatten ++ data) (before ++ pieces) err rest := by
  induction before with
  | nil => exact h
  | cons p before ih =>
    obtain ⟨hp, hbefore⟩ := List.forall_mem_cons.1 hbefore
    rw [List.map_cons, List.flatten_cons, List.append_assoc, List.cons_append]
    exact .step (next_reads hp _) hp.1 (ih hbefore)

theorem length_items_le (h : Trace m data pieces err rest) : (items pieces err).length ≤ data.length := by
  induction h with
  | done => exact le_rfl
  | @error data e hnext =>
    cases data with
    | nil => cases hnext
    | cons b data => simp [items]
  | step _ hi _ ih =>
    have hpos := List.length_pos_iff.2 hi.ne_nil
    simp only [items, List.length_append, List.length_map, List.length_cons] at ih ⊢
    omega

theorem items_eq (h : Trace m data pieces err rest) : Instructions.items ⟨data, m⟩ = items pieces err :=
  h.yields.collect_eq (next_nil m) h.length_items_le

end Trace

theorem length_items_le (it : Instructions) : it.items.length ≤ it.data.length := by
  obtain ⟨data, m⟩ := it
  obtain ⟨pieces, err, rest, h⟩ := exists_trace m data
  rw [h.items_eq]
  exact h.length_items_le

theorem items_ne_nil {it : Instructions} (h : it.data ≠ []) : it.items ≠ [] := by
  obtain ⟨b, data, hdata⟩ := List.exists_cons_of_ne_nil h
  rw [items, hdata, List.length_cons, Iteration.collect]
  split
  · rename_i hnext
    exact absurd (next_eq_none_iff.1 (congrArg Prod.fst hnext)) h
  · exact List.cons_ne_nil _ _

/-- The number of items is within the bounds of `size_hint`. -/
theorem sizeHint_bounds (it : Instructions) :
    it.sizeHint.1 ≤ it.items.length ∧ ∀ max ∈ it.sizeHint.2, it.items.length ≤ max := by
  have hle := it.length_items_le
  unfold sizeHint
  split_ifs with hzero
  · refine ⟨Nat.zero_le _, ?_⟩
    rintro max ⟨⟩
    rwa [hzero] at hle
  · refine ⟨?_, ?_⟩
    · apply List.length_pos_iff.2
      apply items_ne_nil
      rintro hnil
      rw [hnil] at hzero
      exact hzero rfl
    · rintro max ⟨⟩
      exact hle

theorem Trace.err_eq_none {pieces : List (Bytes × Instruction)} {err : Option ScriptError}
    {is : List Instruction} (h : Trace.items pieces err = is.map .ok) :
    err = none ∧ pieces.map Prod.snd = is := by
  cases err with
  | none =>
    rw [Trace.items, Option.toList_none, List.map_nil, List.append_nil] at h
    have hinj : ∀ i i' : Instruction, (Except.ok i : Except ScriptError Instruction) = .ok i' → i = i' :=
      fun _ _ => Except.ok.inj
    refine ⟨rfl, (List.map_inj_right hinj).1 ?_⟩
    rw [← h, List.map_map]
    rfl
  | some e =>
    have hmem : Except.error e ∈ is.map Except.ok := by
      rw [← h, Trace.items]
      simp
    simp at hmem

/-- Which instructions come from a script. -/
theorem items_eq_map_ok_iff {m : Bool} {data : Bytes} {is : List Instruction} :
    items ⟨data, m⟩ = is.map .ok ↔ ∃ pieces : List (Bytes × Instruction), pieces.map Prod.snd = is ∧
      (pieces.map Prod.fst).flatten = data ∧ ∀ p ∈ pieces, p.2.Reads m p.1 := by
  constructor
  · intro hitems
    obtain ⟨pieces, err, rest, h⟩ := exists_trace m data
    rw [h.items_eq] at hitems
    obtain ⟨rfl, rfl⟩ := Trace.err_eq_none hitems
    have hwhole := h.whole
    rw [h.rest_eq_nil_iff.2 rfl, List.append_nil] at hwhole
    exact ⟨pieces, rfl, hwhole.symm, h.reads⟩
  · rintro ⟨pieces, rfl, rfl, hreads⟩
    have h := Trace.append hreads Trace.done
    rw [List.append_nil, List.append_nil] at h
    rw [h.items_eq, Trace.items, List.map_map]
    exact List.append_nil _

/-- Behind instructions without an error come those of what follows. -/
theorem items_append {m : Bool} {data : Bytes} {is : List Instruction}
    (h : items ⟨data, m⟩ = is.map .ok) (more : Bytes) :
    items ⟨data ++ more, m⟩ = is.map .ok ++ items ⟨more, m⟩ := by
  obtain ⟨before, rfl, rfl, hreads⟩ := items_eq_map_ok_iff.1 h
  obtain ⟨pieces, err, rest, ht⟩ := exists_trace m more
  have happend := ht.append hreads
  rw [happend.items_eq, ht.items_eq, Trace.items, Trace.items, List.map_append, List.append_assoc,
    List.map_map]
  rfl

/-- An error is the last answer. -/
theorem Trace.items_after_error {m : Bool} {data rest : Bytes} {pieces : List (Bytes × Instruction)}
    {err : Option ScriptError} (h : Trace m data pieces err rest)
    {before tail : List (Except ScriptError Instruction)} {e : ScriptError}
    (heq : Trace.items pieces err = before ++ .error e :: tail) : tail = [] := by
  induction h generalizing before with
  | done => simp [Trace.items] at heq
  | error =>
    cases before with
    | nil => exact (List.cons.inj heq).2.symm
    | cons b before => simp [Trace.items] at heq
  | step _ _ _ ih =>
    cases before with
    | nil => cases heq
    | cons b before => exact ih (List.cons.inj heq).2

theorem items_after_error {it : Instructions} {before tail : List (Except ScriptError Instruction)}
    {e : ScriptError} (h : it.items = before ++ .error e :: tail) : tail = [] := by
  obtain ⟨data, m⟩ := it
  obtain ⟨pieces, err, rest, ht⟩ := exists_trace m data
  rw [ht.items_eq] at h
  exact ht.items_after_error h

theorem items_reads {m : Bool} {raw : Bytes} {i : Instruction} (h : i.Reads m raw) :
    items ⟨raw, m⟩ = [.ok i] := by
  have hreads : ∀ p ∈ [(raw, i)], p.2.Reads m p.1 := by simpa using h
  exact items_eq_map_ok_iff.2 ⟨[(raw, i)], rfl, List.append_nil raw, hreads⟩

end Instructions

end RustDogecoin
