import RustDogecoin.Blockdata.Size

/-!
# Predicting the weight of a transaction

`predict_weight` and `predict_weight_from_slices` of `blockdata/transaction.rs` compute a weight from
the lengths of scripts and witness elements only.  An input without a witness counts one byte more in
a transaction that has a witness elsewhere; with it the prediction is `Transaction::weight`.  The sums
are those of `usize`, so the largest of them decides whether there is a result at all.
-/

namespace RustDogecoin

/-! ## Loops over a slice -/

section SliceLoop

variable {σ α : Type}

/-- `while i < xs.len() { s = step(s, xs[i]); i += 1; }`, for at most `fuel` turns. -/
def sliceLoop (step : σ → α → σ) (xs : List α) : ℕ → ℕ → σ → σ
  | 0, _, s => s
  | fuel + 1, i, s => if h : i < xs.length then sliceLoop step xs fuel (i + 1) (step s xs[i]) else s

/-- From the `i`-th element on, the loop folds over what is left. -/
theorem sliceLoop_eq_foldl_drop (step : σ → α → σ) {xs : List α} {fuel i : ℕ}
    (hfuel : xs.length ≤ i + fuel) (s : σ) :
    sliceLoop step xs fuel i s = (xs.drop i).foldl step s := by
  induction fuel generalizing i s with
  | zero =>
    rw [List.drop_of_length_le (by omega)]
    rfl
  | succ fuel ih =>
    rw [sliceLoop]
    split_ifs with h
    · rw [ih (by omega), List.drop_eq_getElem_cons h, List.foldl_cons]
    · rw [List.drop_of_length_le (by omega)]
      rfl

theorem sliceLoop_eq_foldl (step : σ → α → σ) (xs : List α) (s : σ) :
    sliceLoop step xs xs.length 0 s = xs.foldl step s :=
  sliceLoop_eq_foldl_drop step (by omega) s

end SliceLoop

/-! ## Predictions -/

/-- Weight prediction of an individual input. -/
structure InputWeightPrediction where
  scriptSize : ℕ
  witnessSize : ℕ
  deriving DecidableEq, Repr

namespace InputWeightPrediction

/-- Computes the prediction for a single input. -/
def new (inputScriptLen : ℕ) (witnessElementLengths : List ℕ) : InputWeightPrediction :=
  -- the number of elements and their total size
  let acc := witnessElementLengths.foldl (fun acc elemLen =>
    (acc.1 + 1, acc.2 + (elemLen + VarInt.sizeOfLen elemLen))) (0, 0)
  let witnessSize := if acc.1 > 0 then acc.2 + VarInt.sizeOfLen acc.1 else 0
  let scriptSize := inputScriptLen + VarInt.sizeOfLen inputScriptLen
  ⟨scriptSize, witnessSize⟩

/-- Computes the prediction for a single input in `const` context. -/
def fromSlice (inputScriptLen : ℕ) (witnessElementLengths : List ℕ) : InputWeightPrediction :=
  let totalSize := sliceLoop (fun totalSize elemLen =>
    totalSize + (elemLen + VarInt.sizeOfLen elemLen)) witnessElementLengths witnessElementLengths.length 0 0
  let witnessSize := if !witnessElementLengths.isEmpty then
    totalSize + VarInt.sizeOfLen witnessElementLengths.length else 0
  let scriptSize := inputScriptLen + VarInt.sizeOfLen inputScriptLen
  ⟨scriptSize, witnessSize⟩

/-- The total weight added to a transaction by an input with this prediction. -/
def weight (self : InputWeightPrediction) : ℕ := self.scriptSize * 4 + self.witnessSize

end InputWeightPrediction

def predictWeightInternal (inputCount partialInputWeight inputsWithWitnesses outputCount
    outputScriptsSize : ℕ) : Outcome Empty ℕ := do
  -- Lengths of txid, index and sequence: (32, 4, 4).
  let inputWeight := partialInputWeight + inputCount * 4 * (32 + 4 + 4)
  let outputSize := 8 * outputCount + outputScriptsSize
  let nonInputSize := 4 + VarInt.sizeOfLen inputCount + VarInt.sizeOfLen outputCount + outputSize + 4
  if inputsWithWitnesses = 0 then
    .require (nonInputSize * 4 + inputWeight < 2 ^ 64) .overflow
    return nonInputSize * 4 + inputWeight
  else
    .require (nonInputSize * 4 + inputWeight + inputCount < 2 ^ 64) .overflow
    .require (inputsWithWitnesses ≤ nonInputSize * 4 + inputWeight + inputCount) .overflow
    .require (nonInputSize * 4 + inputWeight + inputCount - inputsWithWitnesses + 2 < 2 ^ 64) .overflow
    return nonInputSize * 4 + inputWeight + inputCount - inputsWithWitnesses + 2

/-- Predicts the weight of a to-be-constructed transaction. -/
def predictWeight (inputs : List InputWeightPrediction) (outputScriptLens : List ℕ) : Outcome Empty ℕ :=
  -- the number of inputs, their partial weight, and the number of those with a witness
  let input := inputs.foldl (fun acc prediction => (acc.1 + 1, acc.2.1 + prediction.weight,
    acc.2.2 + if prediction.witnessSize > 0 then 1 else 0)) (0, 0, 0)
  -- the number of outputs and the size of their scripts
  let output := outputScriptLens.foldl (fun acc scriptLen =>
    (acc.1 + 1, acc.2 + (scriptLen + VarInt.sizeOfLen scriptLen))) (0, 0)
  predictWeightInternal input.1 input.2.1 input.2.2 output.1 output.2

/-- Predicts the weight of a to-be-constructed transaction in const context. -/
def predictWeightFromSlices (inputs : List InputWeightPrediction) (outputScriptLens : List ℕ) :
    Outcome Empty ℕ :=
  -- the partial weight of the inputs, and the number of those with a witness
  let input := sliceLoop (fun acc prediction => (acc.1 + prediction.weight,
    acc.2 + if prediction.witnessSize > 0 then 1 else 0)) inputs inputs.length 0 (0, 0)
  let outputScriptsSize := sliceLoop (fun outputScriptsSize scriptLen =>
    outputScriptsSize + (scriptLen + VarInt.sizeOfLen scriptLen)) outputScriptLens outputScriptLens.length 0 0
  predictWeightInternal inputs.length input.1 input.2 outputScriptLens.length outputScriptsSize

/-! ## Both paths add up the same -/

section Sums

variable {α : Type}

theorem foldl_count_sum (f : α → ℕ) (xs : List α) (c s : ℕ) :
    xs.foldl (fun acc x => (acc.1 + 1, acc.2 + f x)) (c, s) =
      (c + xs.length, s + (xs.map f).sum) := by
  induction xs generalizing c s with
  | nil => rfl
  | cons x xs ih =>
    rw [List.foldl_cons, ih, List.length_cons, List.map_cons, List.sum_cons, Nat.add_assoc,
      Nat.add_assoc, Nat.add_comm 1]

theorem foldl_sum (f : α → ℕ) (xs : List α) (s : ℕ) :
    xs.foldl (fun acc x => acc + f x) s = s + (xs.map f).sum := by
  induction xs generalizing s with
  | nil => rfl
  | cons x xs ih => rw [List.foldl_cons, ih, List.map_cons, List.sum_cons, Nat.add_assoc]

theorem foldl_sum_sum (f g : α → ℕ) (xs : List α) (s t : ℕ) :
    xs.foldl (fun acc x => (acc.1 + f x, acc.2 + g x)) (s, t) = (s + (xs.map f).sum, t + (xs.map g).sum) := by
  induction xs generalizing s t with
  | nil => rfl
  | cons x xs ih => simp only [List.foldl_cons, ih, List.map_cons, List.sum_cons, Nat.add_assoc]

theorem foldl_count_sum_sum (f g : α → ℕ) (xs : List α) (c s t : ℕ) :
    xs.foldl (fun acc x => (acc.1 + 1, acc.2.1 + f x, acc.2.2 + g x)) (c, s, t) =
      (c + xs.length, s + (xs.map f).sum, t + (xs.map g).sum) := by
  induction xs generalizing c s t with
  | nil => rfl
  | cons x xs ih =>
    simp only [List.foldl_cons, ih, List.map_cons, List.sum_cons, List.length_cons, Nat.add_assoc,
      Nat.add_comm 1]

end Sums

/-- A script or an element with its length in front. -/
def scriptSizeOfLen (len : ℕ) : ℕ := len + VarInt.sizeOfLen len

namespace InputWeightPrediction

theorem new_eq (n : ℕ) (lens : List ℕ) : new n lens = ⟨scriptSizeOfLen n,
    if lens = [] then 0 else (lens.map scriptSizeOfLen).sum + VarInt.sizeOfLen lens.length⟩ := by
  rw [new, foldl_count_sum (fun len => len + VarInt.sizeOfLen len), Nat.zero_add, Nat.zero_add]
  simp only [gt_iff_lt, List.length_pos_iff, ne_eq, ite_not]
  rfl

/-- The two ways to make a prediction agree. -/
theorem fromSlice_eq_new (n : ℕ) (lens : List ℕ) : fromSlice n lens = new n lens := by
  rw [new_eq, fromSlice, sliceLoop_eq_foldl, foldl_sum (fun len => len + VarInt.sizeOfLen len),
    Nat.zero_add]
  cases lens <;> rfl

end InputWeightPrediction

/-- The number of predictions with a witness. -/
def countWithWitness (inputs : List InputWeightPrediction) : ℕ :=
  (inputs.map fun p => if p.witnessSize > 0 then 1 else 0).sum

theorem predictWeight_eq (inputs : List InputWeightPrediction) (lens : List ℕ) :
    predictWeight inputs lens = predictWeightInternal inputs.length
      (inputs.map InputWeightPrediction.weight).sum (countWithWitness inputs) lens.length
      (lens.map scriptSizeOfLen).sum := by
  rw [predictWeight, foldl_count_sum (fun len => len + VarInt.sizeOfLen len),
    foldl_count_sum_sum InputWeightPrediction.weight (fun p => if p.witnessSize > 0 then 1 else 0)]
  simp only [Nat.zero_add]
  rfl

/-- The `const` version has the same sums. -/
theorem predictWeightFromSlices_eq (inputs : List InputWeightPrediction) (lens : List ℕ) :
    predictWeightFromSlices inputs lens = predictWeight inputs lens := by
  rw [predictWeight_eq, predictWeightFromSlices, sliceLoop_eq_foldl, sliceLoop_eq_foldl,
    foldl_sum (fun len => len + VarInt.sizeOfLen len),
    foldl_sum_sum InputWeightPrediction.weight (fun p => if p.witnessSize > 0 then 1 else 0)]
  simp only [Nat.zero_add]
  rfl

/-- When the prediction returns, and what: the subtraction comes before the last addition, so that a
sum may overflow which is larger than the result. -/
theorem predictWeightInternal_eq_ok_iff {c p k oc os inputWeight nonInputSize wu : ℕ} (hk : k ≤ c)
    (hinput : inputWeight = p + c * 4 * (32 + 4 + 4))
    (hother : nonInputSize = 4 + VarInt.sizeOfLen c + VarInt.sizeOfLen oc + (8 * oc + os) + 4) :
    predictWeightInternal c p k oc os = .ok wu ↔
      (wu < 2 ^ 64 ∧ wu + k = nonInputSize * 4 + inputWeight + if 0 < k then c + 2 else 0) ∧
        wu + k < 2 ^ 64 + 2 := by
  subst hinput hother
  unfold predictWeightInternal
  by_cases hzero : k = 0
  · subst hzero
    rw [if_pos rfl, Outcome.require_bind_eq_ok_iff, Outcome.pure_eq_ok, Outcome.ok.injEq]
    simp only [Nat.lt_irrefl, if_false]
    omega
  · rw [if_neg hzero, if_pos (Nat.pos_of_ne_zero hzero)]
    simp only [Outcome.require_bind_eq_ok_iff, Outcome.pure_eq_ok, Outcome.ok.injEq]
    omega

/-! ## The weight of a transaction -/

/-- The prediction for an input, from the length of its script and those of its witness elements. -/
def TxIn.prediction (new : ℕ → List ℕ → InputWeightPrediction) (t : TxIn) :
    Outcome Empty InputWeightPrediction := do
  let elems ← t.witness.repr.toVec
  return new t.scriptSig.length (elems.map List.length)

/-- What `InputWeightPrediction::new` makes of an input. -/
def TxIn.predicted (t : TxIn) : InputWeightPrediction :=
  ⟨scriptSizeOfLen t.scriptSig.length, if t.witness.isEmpty then 0 else t.witness.encodedSize⟩

theorem TxIn.prediction_new_eq {t : TxIn} (h : t.witness.repr.content.length < 2 ^ 63) :
    t.prediction .new = .ok t.predicted := by
  obtain ⟨o, script, n, ⟨r, elems, hp, rfl⟩⟩ := t
  have hholds : (pack elems).Holds elems := ⟨rfl, hp, h⟩
  have hsum : ((elems.map List.length).map scriptSizeOfLen).sum = (elems.flatMap elementBytes).length := by
    rw [List.map_map, ← WitnessRepr.sum_sizes]
    rfl
  rw [TxIn.prediction, hholds.toVec_eq, Outcome.ok_bind, InputWeightPrediction.new_eq, hsum,
    TxIn.predicted, List.length_map]
  cases elems with
  | nil => rfl
  | cons elem elems =>
    have hsize : Witness.encodedSize ⟨pack (elem :: elems), elem :: elems, hp, rfl⟩ =
        ((elem :: elems).flatMap elementBytes).length + VarInt.sizeOfLen (elem :: elems).length :=
      Nat.add_comm _ _
    rw [hsize]
    rfl

theorem TxIn.prediction_fromSlice (t : TxIn) :
    t.prediction .fromSlice = t.prediction .new := by
  simp only [TxIn.prediction, InputWeightPrediction.fromSlice_eq_new]

theorem Witness.encodedSize_of_isEmpty {w : Witness} (h : w.isEmpty = true) : w.encodedSize = 1 := by
  rw [Witness.isEmpty_iff.1 h]
  decide

theorem Witness.encodedSize_pos (w : Witness) : 0 < w.encodedSize := by
  have hpos := (VarInt.mk (UInt64.ofNat w.repr.witnessElements)).size_pos
  unfold Witness.encodedSize VarInt.sizeOfLen
  omega

/-- An input without a witness misses one byte, those with a witness are as heavy as predicted. -/
theorem TxIn.weight_predicted (t : TxIn) :
    t.predicted.weight + 160 + 1 =
      4 * t.baseSize + t.witness.encodedSize + if t.predicted.witnessSize > 0 then 1 else 0 := by
  have hpos := t.witness.encodedSize_pos
  unfold TxIn.predicted InputWeightPrediction.weight TxIn.baseSize scriptSizeOfLen
  by_cases hempty : t.witness.isEmpty = true
  · have hone := Witness.encodedSize_of_isEmpty hempty
    simp only [hempty, if_true, gt_iff_lt, Nat.lt_irrefl, if_false]
    omega
  · simp only [hempty, Bool.false_eq_true, if_false, gt_iff_lt, hpos, if_true]
    omega

/-- The weights of all inputs, with one for each and without one for each witness. -/
theorem sum_weight_predicted (input : List TxIn) :
    ((input.map TxIn.predicted).map InputWeightPrediction.weight).sum + input.length * 4 * (32 + 4 + 4) +
        input.length =
      4 * (input.map TxIn.baseSize).sum + (input.map fun t => t.witness.encodedSize).sum +
        countWithWitness (input.map TxIn.predicted) := by
  induction input with
  | nil => rfl
  | cons t input ih =>
    have ht := t.weight_predicted
    unfold countWithWitness at ih ⊢
    simp only [List.map_cons, List.sum_cons, List.length_cons]
    omega

theorem sum_size_outputs (output : List TxOut) :
    8 * output.length + ((output.map fun o => o.scriptPubkey.length).map scriptSizeOfLen).sum =
      (output.map TxOut.size).sum := by
  induction output with
  | nil => rfl
  | cons o output ih =>
    have ho : o.size = 8 + scriptSizeOfLen o.scriptPubkey.length := by
      unfold TxOut.size scriptSizeOfLen
      omega
    simp only [List.map_cons, List.sum_cons, List.length_cons, ho]
    omega

namespace Transaction

variable {tx : Transaction}

/-- The number of inputs with a witness. -/
def witnessInputs (tx : Transaction) : ℕ := tx.input.countP fun t => !t.witness.isEmpty

theorem countWithWitness_predicted (tx : Transaction) :
    countWithWitness (tx.input.map TxIn.predicted) = tx.witnessInputs := by
  unfold witnessInputs countWithWitness
  induction tx.input with
  | nil => rfl
  | cons t input ih =>
    have hpos := t.witness.encodedSize_pos
    rw [List.map_cons, List.map_cons, List.sum_cons, ih, List.countP_cons, Nat.add_comm, TxIn.predicted]
    by_cases hempty : t.witness.isEmpty = true
    · simp [hempty]
    · simp [hempty, hpos]

theorem witnessInputs_le (tx : Transaction) : tx.witnessInputs ≤ tx.input.length := List.countP_le_length

theorem usesSegwitSerialization_iff_witnessInputs (hin : tx.input ≠ []) :
    tx.usesSegwitSerialization = true ↔ 0 < tx.witnessInputs := by
  rw [witnessInputs, List.countP_pos_iff, ← List.any_eq_true, usesSegwitSerialization]
  split_ifs with h
  · exact iff_of_true rfl h
  · exact iff_of_false (by simpa using hin) h

theorem witnessSize_of_witnessInputs_eq_zero (h : tx.witnessInputs = 0) :
    tx.witnessSize = tx.input.length := by
  have hempty : ∀ t ∈ tx.input, t.witness.encodedSize = 1 := by
    intro t ht
    apply Witness.encodedSize_of_isEmpty
    simpa using List.countP_eq_zero.1 h t ht
  rw [witnessSize, List.map_congr_left hempty]
  simp

/-- The weight as `predict_weight_internal` adds it up. -/
theorem weight_eq_ok_iff_predicted (h : tx.Allocated) (hin : tx.input ≠ []) {inputWeight nonInputSize wu : ℕ}
    (hinput : inputWeight = ((tx.input.map TxIn.predicted).map InputWeightPrediction.weight).sum +
      tx.input.length * 4 * (32 + 4 + 4))
    (hother : nonInputSize = 4 + VarInt.sizeOfLen tx.input.length + VarInt.sizeOfLen tx.output.length +
      (tx.output.map TxOut.size).sum + 4) :
    tx.weight = .ok wu ↔ wu < 2 ^ 64 ∧ wu + tx.witnessInputs = nonInputSize * 4 + inputWeight +
      if 0 < tx.witnessInputs then tx.input.length + 2 else 0 := by
  have hsum := sum_weight_predicted tx.input
  rw [countWithWitness_predicted, ← hinput] at hsum
  have hle := tx.witnessInputs_le
  have hbase : tx.baseSize = nonInputSize + (tx.input.map TxIn.baseSize).sum := by
    rw [hother, baseSize]
    omega
  rw [weight_eq_ok_iff h.witness, encodedSize, and_comm, hbase]
  apply and_congr_right
  intro hlt
  by_cases hpos : 0 < tx.witnessInputs
  · rw [if_pos ((usesSegwitSerialization_iff_witnessInputs hin).2 hpos), if_pos hpos, witnessSize]
    omega
  · have hzero : tx.witnessInputs = 0 := by omega
    have hsize := witnessSize_of_witnessInputs_eq_zero hzero
    rw [if_neg (mt (usesSegwitSerialization_iff_witnessInputs hin).1 hpos), if_neg hpos]
    unfold witnessSize at hsize
    omega

theorem predictWeight_eq_ok_iff (h : tx.Allocated) (hin : tx.input ≠ []) {wu : ℕ} :
    predictWeight (tx.input.map TxIn.predicted) (tx.output.map fun o => o.scriptPubkey.length) = .ok wu ↔
      tx.weight = .ok wu ∧ wu + tx.witnessInputs < 2 ^ 64 + 2 := by
  have hother := sum_size_outputs tx.output
  rw [predictWeight_eq, countWithWitness_predicted, List.length_map, List.length_map,
    predictWeightInternal_eq_ok_iff tx.witnessInputs_le rfl rfl, hother,
    weight_eq_ok_iff_predicted h hin rfl rfl]

/-- Both predictions, from the lengths of the scripts and of the witness elements, are the weight of
the transaction; they are made unless the weight and the number of inputs with a witness exceed
`usize`. -/
theorem predictions_eq_weight (tx : Transaction) (h : tx.Allocated) (hin : tx.input ≠ []) :
    ∃ inputs, tx.input.mapM (TxIn.prediction .new) = .ok inputs ∧
      tx.input.mapM (TxIn.prediction .fromSlice) = .ok inputs ∧
      (∀ wu, predictWeight inputs (tx.output.map fun o => o.scriptPubkey.length) = .ok wu ↔
        tx.weight = .ok wu ∧ wu + tx.witnessInputs < 2 ^ 64 + 2) ∧
      predictWeightFromSlices inputs (tx.output.map fun o => o.scriptPubkey.length) =
        predictWeight inputs (tx.output.map fun o => o.scriptPubkey.length) := by
  have hnew : tx.input.mapM (TxIn.prediction .new) = .ok (tx.input.map TxIn.predicted) :=
    Outcome.mapM_of_forall fun t ht => TxIn.prediction_new_eq (h.witness t ht)
  have hslice : TxIn.prediction .fromSlice = TxIn.prediction .new := funext TxIn.prediction_fromSlice
  refine ⟨_, hnew, ?_, fun wu => predictWeight_eq_ok_iff h hin, predictWeightFromSlices_eq _ _⟩
  rw [hslice, hnew]

theorem predictions_eq_weight_mixed :
    ∃ inputs, mixed.input.mapM (TxIn.prediction .new) = .ok inputs ∧
      mixed.input.mapM (TxIn.prediction .fromSlice) = .ok inputs ∧
      (∀ wu, predictWeight inputs (mixed.output.map fun o => o.scriptPubkey.length) = .ok wu ↔
        mixed.weight = .ok wu ∧ wu + mixed.witnessInputs < 2 ^ 64 + 2) ∧
      predictWeightFromSlices inputs (mixed.output.map fun o => o.scriptPubkey.length) =
        predictWeight inputs (mixed.output.map fun o => o.scriptPubkey.length) :=
  predictions_eq_weight mixed allocated_mixed (by decide)

end Transaction

end RustDogecoin
