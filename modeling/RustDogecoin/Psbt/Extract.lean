import RustDogecoin.Psbt.Limits

/-!
# Extracting the final transaction

`fee` and `extract_tx_with_fee_rate_limit` of `psbt/mod.rs`.  `fee` adds up the spent outputs that the input
maps give, and stops at the first input without one; `extract_tx_with_fee_rate_limit` translates its errors,
all but the one for a previous transaction that has no output at the index that is spent.

`extractTxWithFeeRateLimit_documented_iff` says when the result is the documented one: that error must not be
the first one, and the product of fee and 1000 must not saturate below a rate that is above the limit.
-/

namespace RustDogecoin

namespace Psbt

variable {S : KeyFormats}

/-! ## The code -/

/-- An item of `iter_funding_utxos`. -/
def fundingUtxo (txInput : TxIn) (psbtInput : Input S) : Except (Error S) TxOut :=
  match psbtInput.witnessUtxo, psbtInput.nonWitnessUtxo with
  | some witnessUtxo, _ => .ok witnessUtxo
  | none, some nonWitnessUtxo =>
    match nonWitnessUtxo.output[txInput.previousOutput.vout.toNat]? with
    | some out => .ok out
    | none => .error .psbtUtxoOutOfbounds
  | none, none => .error .missingUtxo

/-- `Psbt::iter_funding_utxos`. -/
def iterFundingUtxos (p : Psbt S) : Outcome (Error S) (List (Except (Error S) TxOut)) := do
  .require (p.inputs.length = p.unsignedTx.input.length) .assertion
  return (p.unsignedTx.input.zip p.inputs).map fun q => fundingUtxo q.1 q.2

/-- A sum in `u64`. -/
def checked (sum : ℕ) : Outcome (Error S) ℕ := if sum < 2 ^ 64 then .ok sum else .err .feeOverflow

/-- `checked_add` of a value to the sum of the values before it. -/
def checkedAdd (sum : ℕ) (value : UInt64) : Outcome (Error S) ℕ := checked (sum + value.toNat)

/-- A turn of the loop of `fee` over the inputs. -/
def addUtxo (inputs : ℕ) (utxo : Except (Error S) TxOut) : Outcome (Error S) ℕ := do
  let utxo ← Outcome.ofExcept utxo
  checkedAdd inputs utxo.value

/-- `Psbt::fee`. -/
def fee (p : Psbt S) : Outcome (Error S) ℕ := do
  let utxos ← p.iterFundingUtxos
  let inputs ← utxos.foldlM addUtxo 0
  let outputs ← (p.unsignedTx.output.map TxOut.value).foldlM checkedAdd 0
  .ensure (outputs ≤ inputs) .negativeFee
  return inputs - outputs

/-- The loop of `internal_extract_tx`. -/
def fillIn : List TxIn → List (Input S) → List TxIn
  | vin :: input, psbtin :: inputs =>
    { vin with
      scriptSig := psbtin.finalScriptSig.getD []
      witness := psbtin.finalScriptWitness.getD .new } :: fillIn input inputs
  | input, _ => input

/-- `Psbt::internal_extract_tx`. -/
def internalExtractTx (p : Psbt S) : Transaction :=
  { p.unsignedTx with input := fillIn p.unsignedTx.input p.inputs }

/-- `FeeRate`, in satoshis for 1000 weight units. -/
abbrev FeeRate := UInt64

def FeeRate.MAX : FeeRate := 0xFFFFFFFFFFFFFFFF

/-- `ExtractTxError`. -/
inductive ExtractTxError (S : KeyFormats) where
  | absurdFeeRate (feeRate : FeeRate) (tx : Transaction)
  | missingInputValue (tx : Transaction)
  | sendingTooMuch (psbt : Psbt S)

/-- `Psbt::extract_tx_with_fee_rate_limit`. -/
def extractTxWithFeeRateLimit (p : Psbt S) (maxFeeRate : FeeRate) : Outcome (ExtractTxError S) Transaction :=
  match p.fee with
  | .err .missingUtxo => .err (.missingInputValue p.internalExtractTx)
  | .err .negativeFee => .err (.sendingTooMuch p)
  | .err .feeOverflow => .err (.absurdFeeRate FeeRate.MAX p.internalExtractTx)
  -- `unreachable!()`
  | .err _ => .panic .assertion
  | .panic e => .panic e
  | .ok fee => do
    let tx := p.internalExtractTx
    let weight ← tx.weight.lift
    .require (weight ≠ 0) .divideByZero
    let feeRate := UInt64.ofNat (min (fee * 1000) (2 ^ 64 - 1) / weight)
    .ensure (¬maxFeeRate < feeRate) (.absurdFeeRate feeRate tx)
    return tx

/-! ## What is documented -/

/-- The output that an input spends, as far as its map gives it. -/
def spentOutput (q : TxIn × Input S) : Option TxOut :=
  match q.2.witnessUtxo with
  | some out => some out
  | none => q.2.nonWitnessUtxo.bind fun tx => tx.output[q.1.previousOutput.vout.toNat]?

/-- The maps give all spent outputs. -/
def AllSpent (qs : List (TxIn × Input S)) : Prop := ∀ q ∈ qs, (spentOutput q).isSome

/-- The values of the spent outputs that the maps give. -/
def spentValues (qs : List (TxIn × Input S)) : List UInt64 := (qs.filterMap spentOutput).map TxOut.value

/-- The exact sum of values. -/
def total (values : List UInt64) : ℕ := (values.map UInt64.toNat).sum

/-- The inputs with their maps. -/
def spends (p : Psbt S) : List (TxIn × Input S) := p.unsignedTx.input.zip p.inputs

/-- The sum of the spent outputs. -/
def spentValue (p : Psbt S) : ℕ := total (spentValues p.spends)

/-- The sum of the outputs. -/
def sentValue (p : Psbt S) : ℕ := total (p.unsignedTx.output.map TxOut.value)

/-- All spent outputs are known, and the fee can be computed without overflow. -/
structure HasFee (p : Psbt S) : Prop where
  allSpent : AllSpent p.spends
  spentValue_lt : p.spentValue < 2 ^ 64
  sentValue_lt : p.sentValue < 2 ^ 64
  sentValue_le : p.sentValue ≤ p.spentValue

/-- The exact fee rate of the final transaction is at most the limit. -/
def RateAtMost (p : Psbt S) (limit : FeeRate) : Prop :=
  ∃ weight, p.internalExtractTx.weight = .ok weight ∧ (p.spentValue - p.sentValue) * 1000 / weight ≤ limit.toNat

/-- The documented results: the final transaction, or the variant whose documented condition holds. -/
inductive Documented (p : Psbt S) (limit : FeeRate) : Outcome (ExtractTxError S) Transaction → Prop where
  | extracted (hfee : p.HasFee) (hrate : p.RateAtMost limit) : Documented p limit (.ok p.internalExtractTx)
  | missingInputValue (h : ¬AllSpent p.spends) :
    Documented p limit (.err (.missingInputValue p.internalExtractTx))
  | sendingTooMuch (hall : AllSpent p.spends) (h : p.spentValue < p.sentValue) :
    Documented p limit (.err (.sendingTooMuch p))
  | overflow (h : 2 ^ 64 ≤ p.spentValue ∨ 2 ^ 64 ≤ p.sentValue) :
    Documented p limit (.err (.absurdFeeRate FeeRate.MAX p.internalExtractTx))
  | absurdFeeRate (hfee : p.HasFee) (hrate : ¬p.RateAtMost limit) {feeRate : FeeRate} (h : limit < feeRate) :
    Documented p limit (.err (.absurdFeeRate feeRate p.internalExtractTx))

/-- The map has a previous transaction only, and this has no output at the index that is spent. -/
def OutOfBounds (q : TxIn × Input S) : Prop :=
  q.2.witnessUtxo = none ∧
    ∃ tx, q.2.nonWitnessUtxo = some tx ∧ tx.output.length ≤ q.1.previousOutput.vout.toNat

/-- An index that is out of bounds is reached: the inputs before it have their spent outputs, and the sum of
these does not overflow. -/
def ReachesOutOfBounds (p : Psbt S) : Prop :=
  ∃ pre q post, p.spends = pre ++ q :: post ∧ AllSpent pre ∧ total (spentValues pre) < 2 ^ 64 ∧ OutOfBounds q

/-- The fee rate is above the limit, but the largest product over the weight is not. -/
def HidesRate (p : Psbt S) (limit : FeeRate) : Prop :=
  p.HasFee ∧ ∃ weight, p.internalExtractTx.weight = .ok weight ∧ (2 ^ 64 - 1) / weight ≤ limit.toNat ∧
    limit.toNat < (p.spentValue - p.sentValue) * 1000 / weight

/-! ## The fee -/

@[simp] theorem total_nil : total [] = 0 := rfl

@[simp] theorem total_cons (v : UInt64) (values : List UInt64) : total (v :: values) = v.toNat + total values := rfl

theorem checked_of_lt {sum : ℕ} (h : sum < 2 ^ 64) : (checked sum : Outcome (Error S) ℕ) = .ok sum := if_pos h

theorem checked_of_le {sum : ℕ} (h : 2 ^ 64 ≤ sum) :
    (checked sum : Outcome (Error S) ℕ) = .err .feeOverflow := if_neg (not_lt.2 h)

theorem foldlM_checkedAdd (values : List UInt64) {sum : ℕ} (hsum : sum < 2 ^ 64) :
    values.foldlM (m := Outcome (Error S)) checkedAdd sum = checked (sum + total values) := by
  induction values generalizing sum with
  | nil => exact (checked_of_lt hsum).symm
  | cons v values ih =>
    rw [List.foldlM_cons, checkedAdd, total_cons]
    by_cases hv : sum + v.toNat < 2 ^ 64
    · rw [checked_of_lt hv, Outcome.ok_bind, ih hv, Nat.add_assoc]
    · rw [checked_of_le (not_lt.1 hv), Outcome.err_bind, checked_of_le (by omega)]

theorem fundingUtxo_of_spentOutput {q : TxIn × Input S} {out : TxOut} (h : spentOutput q = some out) :
    fundingUtxo q.1 q.2 = .ok out := by
  unfold spentOutput at h
  unfold fundingUtxo
  cases hw : q.2.witnessUtxo with
  | some w =>
    rw [hw] at h
    cases h
    rfl
  | none =>
    rw [hw] at h
    obtain ⟨tx, htx, hout⟩ := Option.bind_eq_some_iff.1 h
    simp only [htx, hout]

theorem fundingUtxo_of_outOfBounds {q : TxIn × Input S} (h : OutOfBounds q) :
    fundingUtxo q.1 q.2 = .error .psbtUtxoOutOfbounds := by
  obtain ⟨hw, tx, htx, hlen⟩ := h
  simp only [fundingUtxo, hw, htx, List.getElem?_eq_none hlen]

/-- Without the spent output, an item is the error for a missing one or for an index out of bounds. -/
theorem fundingUtxo_of_none {q : TxIn × Input S} (h : spentOutput q = none) :
    fundingUtxo q.1 q.2 = .error .missingUtxo ∨ OutOfBounds q := by
  unfold spentOutput at h
  cases hw : q.2.witnessUtxo with
  | some w =>
    rw [hw] at h
    cases h
  | none =>
    rw [hw] at h
    cases htx : q.2.nonWitnessUtxo with
    | none =>
      left
      simp only [fundingUtxo, hw, htx]
    | some tx =>
      right
      rw [htx] at h
      exact ⟨hw, tx, htx, List.getElem?_eq_none_iff.1 h⟩

/-- With all spent outputs, the loop over the inputs adds their values up. -/
theorem foldlM_addUtxo {qs : List (TxIn × Input S)} (h : AllSpent qs) (sum : ℕ) :
    (qs.map fun q => fundingUtxo q.1 q.2).foldlM addUtxo sum = (spentValues qs).foldlM checkedAdd sum := by
  induction qs generalizing sum with
  | nil => rfl
  | cons q qs ih =>
    obtain ⟨hq, hqs⟩ := List.forall_mem_cons.1 h
    obtain ⟨out, hout⟩ := Option.isSome_iff_exists.1 hq
    have hvalues : spentValues (q :: qs) = out.value :: spentValues qs := by
      rw [spentValues, List.filterMap_cons_some hout]
      rfl
    rw [List.map_cons, List.foldlM_cons, hvalues, List.foldlM_cons, addUtxo, fundingUtxo_of_spentOutput hout]
    simp only [Outcome.ofExcept_ok, Outcome.ok_bind, ih hqs]

/-- The loop stops at the first input without a spent output, unless it overflows before. -/
theorem foldlM_addUtxo_of_error {pre post : List (TxIn × Input S)} {q : TxIn × Input S} (h : AllSpent pre)
    {e : Error S} (he : fundingUtxo q.1 q.2 = .error e) :
    ((pre ++ q :: post).map fun q => fundingUtxo q.1 q.2).foldlM addUtxo 0 =
      (checked (total (spentValues pre)) >>= fun _ => .err e) := by
  rw [List.map_append, List.foldlM_append, foldlM_addUtxo h, foldlM_checkedAdd _ (by decide), Nat.zero_add,
    List.map_cons]
  congr 1
  funext sum
  rw [List.foldlM_cons, addUtxo, he]
  rfl

theorem exists_first_unspent {qs : List (TxIn × Input S)} (h : ¬AllSpent qs) :
    ∃ pre q post, qs = pre ++ q :: post ∧ AllSpent pre ∧ spentOutput q = none := by
  induction qs with
  | nil => exact absurd (by simp [AllSpent]) h
  | cons q qs ih =>
    cases hq : spentOutput q with
    | none => exact ⟨[], q, qs, rfl, by simp [AllSpent], hq⟩
    | some out =>
      have hspent : (spentOutput q).isSome := by rw [hq]; rfl
      obtain ⟨pre, q', post, rfl, hpre, hq'⟩ :=
        ih fun hqs => h (List.forall_mem_cons.2 ⟨hspent, hqs⟩)
      exact ⟨q :: pre, q', post, rfl, List.forall_mem_cons.2 ⟨hspent, hpre⟩, hq'⟩

theorem total_append (values values' : List UInt64) : total (values ++ values') = total values + total values' := by
  simp [total]

theorem spentValues_append (qs qs' : List (TxIn × Input S)) :
    spentValues (qs ++ qs') = spentValues qs ++ spentValues qs' := by
  simp [spentValues]

theorem iterFundingUtxos_eq {p : Psbt S} (h : p.inputs.length = p.unsignedTx.input.length) :
    p.iterFundingUtxos = .ok (p.spends.map fun q => fundingUtxo q.1 q.2) := by
  rw [iterFundingUtxos, Outcome.require_of h]
  rfl

/-- What `fee` returns, and under which condition. -/
inductive FeeResult (p : Psbt S) : Outcome (Error S) ℕ → Prop where
  | fee (h : p.HasFee) : FeeResult p (.ok (p.spentValue - p.sentValue))
  | negativeFee (hall : AllSpent p.spends) (h : p.spentValue < p.sentValue) : FeeResult p (.err .negativeFee)
  | feeOverflow (h : 2 ^ 64 ≤ p.spentValue ∨ 2 ^ 64 ≤ p.sentValue) : FeeResult p (.err .feeOverflow)
  | missingUtxo (h : ¬AllSpent p.spends) : FeeResult p (.err .missingUtxo)
  | psbtUtxoOutOfbounds (h : p.ReachesOutOfBounds) : FeeResult p (.err .psbtUtxoOutOfbounds)

theorem fee_eq {p : Psbt S} (h : p.inputs.length = p.unsignedTx.input.length) : p.fee = do
    let inputs ← (p.spends.map fun q => fundingUtxo q.1 q.2).foldlM addUtxo 0
    let outputs ← checked p.sentValue
    .ensure (outputs ≤ inputs) .negativeFee
    return inputs - outputs := by
  rw [fee, iterFundingUtxos_eq h, Outcome.ok_bind, foldlM_checkedAdd _ (by decide), Nat.zero_add]
  rfl

theorem feeResult_of_allSpent {p : Psbt S} (h : p.inputs.length = p.unsignedTx.input.length)
    (hall : AllSpent p.spends) : FeeResult p p.fee := by
  rw [fee_eq h, foldlM_addUtxo hall, foldlM_checkedAdd _ (by decide), Nat.zero_add, ← spentValue]
  by_cases hspent : p.spentValue < 2 ^ 64
  swap
  · rw [checked_of_le (not_lt.1 hspent)]
    exact .feeOverflow (Or.inl (not_lt.1 hspent))
  rw [checked_of_lt hspent, Outcome.ok_bind]
  by_cases hsent : p.sentValue < 2 ^ 64
  swap
  · rw [checked_of_le (not_lt.1 hsent)]
    exact .feeOverflow (Or.inr (not_lt.1 hsent))
  rw [checked_of_lt hsent, Outcome.ok_bind]
  by_cases hle : p.sentValue ≤ p.spentValue
  · rw [Outcome.ensure_of hle]
    exact .fee ⟨hall, hspent, hsent, hle⟩
  · rw [Outcome.ensure, if_neg hle]
    exact .negativeFee hall (not_le.1 hle)

/-- The first input without a spent output decides, unless the values before it overflow. -/
theorem fee_of_error {p : Psbt S} (h : p.inputs.length = p.unsignedTx.input.length)
    {pre post : List (TxIn × Input S)} {q : TxIn × Input S} (hspends : p.spends = pre ++ q :: post)
    (hpre : AllSpent pre) {e : Error S} (he : fundingUtxo q.1 q.2 = .error e) :
    p.fee = if total (spentValues pre) < 2 ^ 64 then .err e else .err .feeOverflow := by
  rw [fee_eq h, hspends, foldlM_addUtxo_of_error hpre he, checked]
  split_ifs <;> rfl

theorem feeResult_fee {p : Psbt S} (h : p.inputs.length = p.unsignedTx.input.length) : FeeResult p p.fee := by
  by_cases hall : AllSpent p.spends
  · exact feeResult_of_allSpent h hall
  obtain ⟨pre, q, post, hspends, hpre, hq⟩ := exists_first_unspent hall
  have hoverflow : ¬total (spentValues pre) < 2 ^ 64 → FeeResult p (.err .feeOverflow) := by
    intro hlt
    refine .feeOverflow (Or.inl ((not_lt.1 hlt).trans ?_))
    rw [spentValue, hspends, spentValues_append, total_append]
    exact Nat.le_add_right _ _
  rcases fundingUtxo_of_none hq with he | hbounds
  · rw [fee_of_error h hspends hpre he]
    split_ifs with hlt
    · exact .missingUtxo hall
    · exact hoverflow hlt
  · rw [fee_of_error h hspends hpre (fundingUtxo_of_outOfBounds hbounds)]
    split_ifs with hlt
    · exact .psbtUtxoOutOfbounds ⟨pre, q, post, hspends, hpre, hlt, hbounds⟩
    · exact hoverflow hlt

theorem fee_of_reachesOutOfBounds {p : Psbt S} (hlen : p.inputs.length = p.unsignedTx.input.length)
    (h : p.ReachesOutOfBounds) : p.fee = .err .psbtUtxoOutOfbounds := by
  obtain ⟨pre, q, post, hspends, hpre, hlt, hbounds⟩ := h
  rw [fee_of_error hlen hspends hpre (fundingUtxo_of_outOfBounds hbounds), if_pos hlt]

/-! ## The final transaction -/

theorem mem_fillIn {input : List TxIn} {inputs : List (Input S)} (hlen : inputs.length = input.length) {t : TxIn}
    (ht : t ∈ fillIn input inputs) : ∃ m ∈ inputs, t.scriptSig = m.finalScriptSig.getD [] ∧
      t.witness = m.finalScriptWitness.getD .new := by
  induction input generalizing inputs with
  | nil =>
    obtain rfl := List.length_eq_zero_iff.1 hlen
    cases ht
  | cons vin input ih =>
    obtain ⟨m, inputs, rfl⟩ := List.exists_cons_of_length_eq_add_one hlen
    rcases List.mem_cons.1 ht with rfl | ht
    · exact ⟨m, List.mem_cons_self, rfl, rfl⟩
    · obtain ⟨m', hm', hfields⟩ := ih (Nat.succ_injective hlen) ht
      exact ⟨m', List.mem_cons_of_mem _ hm', hfields⟩

theorem length_fillIn (input : List TxIn) (inputs : List (Input S)) :
    (fillIn input inputs).length = input.length := by
  induction input generalizing inputs with
  | nil => rfl
  | cons vin input ih =>
    cases inputs with
    | nil => rfl
    | cons m inputs => exact congrArg Nat.succ (ih inputs)

theorem Limited.internalExtractTx {p : Psbt S} (h : p.Limited) : p.internalExtractTx.Limited where
  input := (length_fillIn _ _).trans_le h.unsignedTx.input
  scriptSig t ht := by
    obtain ⟨m, hm, hscript, -⟩ := mem_fillIn h.length_inputs ht
    rw [hscript]
    cases hsig : m.finalScriptSig with
    | none => exact Nat.zero_le _
    | some script => exact (h.inputs m hm).finalScriptSig script hsig
  witness t ht := by
    obtain ⟨m, hm, -, hwitness⟩ := mem_fillIn h.length_inputs ht
    rw [hwitness]
    cases hw : m.finalScriptWitness with
    | none => exact Nat.zero_le _
    | some w => exact (h.inputs m hm).finalScriptWitness w hw
  output := h.unsignedTx.output
  scriptPubkey := h.unsignedTx.scriptPubkey

/-! ## The result -/

/-- The rate that is computed: the product saturates. -/
def saturatedRate (p : Psbt S) (weight : ℕ) : ℕ :=
  min ((p.spentValue - p.sentValue) * 1000) (2 ^ 64 - 1) / weight

theorem toNat_saturatedRate (p : Psbt S) (weight : ℕ) :
    (UInt64.ofNat (p.saturatedRate weight)).toNat = p.saturatedRate weight := by
  apply UInt64.toNat_ofNat_of_lt'
  have hle : p.saturatedRate weight ≤ 2 ^ 64 - 1 := (Nat.div_le_self _ _).trans (min_le_right _ _)
  exact hle.trans_lt (by decide)

theorem extractTx_of_fee {p : Psbt S} (hfee : p.fee = .ok (p.spentValue - p.sentValue)) {weight : ℕ}
    (hweight : p.internalExtractTx.weight = .ok weight) (limit : FeeRate) :
    p.extractTxWithFeeRateLimit limit =
      if limit.toNat < p.saturatedRate weight then
        .err (.absurdFeeRate (UInt64.ofNat (p.saturatedRate weight)) p.internalExtractTx)
      else .ok p.internalExtractTx := by
  have hpos := Transaction.weight_pos hweight
  have hlt : limit < UInt64.ofNat (p.saturatedRate weight) ↔ limit.toNat < p.saturatedRate weight := by
    rw [UInt64.lt_iff_toNat_lt, toNat_saturatedRate]
  rw [extractTxWithFeeRateLimit, hfee]
  simp only [hweight, Outcome.lift_ok, Outcome.ok_bind, Outcome.require_of hpos.ne']
  change (Outcome.ensure (¬limit < UInt64.ofNat (p.saturatedRate weight)) _ >>= _) = _
  by_cases h : limit.toNat < p.saturatedRate weight
  · rw [if_pos h, Outcome.ensure, if_neg (not_not.2 (hlt.2 h))]
    rfl
  · rw [if_neg h, Outcome.ensure_of (mt hlt.1 h)]
    rfl

/-- With a fee, the result is the documented one unless the rate is hidden by the saturation. -/
theorem documented_of_hasFee {p : Psbt S} (hfee : p.HasFee) (heq : p.fee = .ok (p.spentValue - p.sentValue))
    {weight : ℕ} (hweight : p.internalExtractTx.weight = .ok weight) (limit : FeeRate) :
    Documented p limit (p.extractTxWithFeeRateLimit limit) ↔ ¬p.HidesRate limit := by
  have hrate : p.RateAtMost limit ↔ (p.spentValue - p.sentValue) * 1000 / weight ≤ limit.toNat := by
    constructor
    · rintro ⟨w, hw, hle⟩
      rwa [Outcome.ok.inj (hweight.symm.trans hw)]
    · exact fun hle => ⟨weight, hweight, hle⟩
  have hhides : p.HidesRate limit ↔ (2 ^ 64 - 1) / weight ≤ limit.toNat ∧ ¬p.RateAtMost limit := by
    rw [hrate, not_le]
    constructor
    · rintro ⟨-, w, hw, hle, hlt⟩
      rw [Outcome.ok.inj (hweight.symm.trans hw)]
      exact ⟨hle, hlt⟩
    · exact fun hle => ⟨hfee, weight, hweight, hle⟩
  have hsaturated : p.saturatedRate weight ≤ limit.toNat ↔
      p.RateAtMost limit ∨ (2 ^ 64 - 1) / weight ≤ limit.toNat := by
    rw [hrate, saturatedRate]
    rcases min_cases ((p.spentValue - p.sentValue) * 1000) (2 ^ 64 - 1) with ⟨hmin, hle⟩ | ⟨hmin, hlt⟩
    · rw [hmin]
      exact ⟨Or.inl, fun h => h.elim id ((Nat.div_le_div_right hle).trans)⟩
    · rw [hmin]
      exact ⟨Or.inr, fun h => h.elim ((Nat.div_le_div_right hlt.le).trans) id⟩
  rw [extractTx_of_fee heq hweight, hhides]
  by_cases hlt : limit.toNat < p.saturatedRate weight
  · rw [if_pos hlt]
    have hnot : ¬(p.RateAtMost limit ∨ (2 ^ 64 - 1) / weight ≤ limit.toNat) :=
      fun h => not_le.2 hlt (hsaturated.2 h)
    refine iff_of_true (.absurdFeeRate hfee (fun h => hnot (Or.inl h)) ?_) fun h => hnot (Or.inr h.1)
    rwa [UInt64.lt_iff_toNat_lt, toNat_saturatedRate]
  · rw [if_neg hlt]
    have hor := hsaturated.1 (not_lt.1 hlt)
    constructor
    · rintro ⟨-, hatMost⟩ ⟨-, hnot⟩
      exact hnot hatMost
    · intro hnot
      refine .extracted hfee (hor.elim id fun hle => ?_)
      by_contra hno
      exact hnot ⟨hle, hno⟩

/-- The result is the documented one exactly if no index that is out of bounds is reached and the saturation
does not hide a rate that is too high. -/
theorem extractTxWithFeeRateLimit_documented_iff (hS : S.Lawful) {bytes : Bytes} {p : Psbt S}
    (h : deserialize bytes = .ok p) (limit : FeeRate) :
    Documented p limit (p.extractTxWithFeeRateLimit limit) ↔
      ¬p.ReachesOutOfBounds ∧ ¬p.HidesRate limit := by
  have hlimited := limited_of_deserialize hS h
  obtain ⟨weight, hweight⟩ := hlimited.internalExtractTx.exists_weight
  have hreaches := fee_of_reachesOutOfBounds hlimited.length_inputs
  have hresult := feeResult_fee hlimited.length_inputs
  generalize heq : p.fee = r at hresult
  cases hresult with
  | fee hfee =>
    rw [documented_of_hasFee hfee heq hweight]
    refine (and_iff_right fun hr => ?_).symm
    cases heq.symm.trans (hreaches hr)
  | negativeFee hall hlt =>
    rw [extractTxWithFeeRateLimit, heq]
    refine iff_of_true (.sendingTooMuch hall hlt) ⟨fun hr => ?_, fun hh => not_le.2 hlt hh.1.sentValue_le⟩
    cases heq.symm.trans (hreaches hr)
  | feeOverflow hle =>
    rw [extractTxWithFeeRateLimit, heq]
    refine iff_of_true (.overflow hle) ⟨fun hr => ?_, fun hh => ?_⟩
    · cases heq.symm.trans (hreaches hr)
    · exact hle.elim (not_le.2 hh.1.spentValue_lt) (not_le.2 hh.1.sentValue_lt)
  | missingUtxo hnot =>
    rw [extractTxWithFeeRateLimit, heq]
    refine iff_of_true (.missingInputValue hnot) ⟨fun hr => ?_, fun hh => hnot hh.1.allSpent⟩
    cases heq.symm.trans (hreaches hr)
  | psbtUtxoOutOfbounds hr =>
    rw [extractTxWithFeeRateLimit, heq]
    refine iff_of_false (fun hdoc => ?_) fun hh => hh.1 hr
    cases hdoc

/-! ### An input with a previous transaction that has no outputs -/

/-- The bytes of a transaction with one input and no outputs, and the pairs of the map of the input. -/
def sampleBytes (inputPairs : Bytes) : Bytes :=
  MAGIC_BYTES.toList ++ [PSBT_SERPARATOR] ++
    ([0x01, 0x00, 0x33] ++ ([2, 0, 0, 0] ++ [1] ++ List.replicate 36 0 ++ [0] ++ [0xff, 0xff, 0xff, 0xff] ++ [0] ++
      [0, 0, 0, 0]) ++ [0x00]) ++ (inputPairs ++ [0x00])

/-- A witness UTXO of 1000 satoshis. -/
def sampleWitnessUtxo : Bytes := [0x01, 0x01, 0x09] ++ leBytes 8 1000 ++ [0]

/-- A previous transaction without inputs and outputs. -/
def sampleNonWitnessUtxo : Bytes := [0x01, 0x00, 0x0c] ++ [2, 0, 0, 0, 0x00, 0x01, 0, 0, 0, 0, 0, 0]

theorem not_outOfBounds_of_spentOutput {q : TxIn × Input S} {out : TxOut} (h : spentOutput q = some out) :
    ¬OutOfBounds q := by
  intro hbounds
  cases (fundingUtxo_of_spentOutput h).symm.trans (fundingUtxo_of_outOfBounds hbounds)

theorem exists_sampleWitnessUtxo : ∃ p : Psbt KeyFormats.curve,
    deserialize (sampleBytes sampleWitnessUtxo) = .ok p ∧
      p.spends.map spentOutput = [some ⟨1000, []⟩] ∧ p.spentValue = 1000 := by
  have h : ((fun p : Psbt KeyFormats.curve => (p.spends.map spentOutput, p.spentValue)) <$>
      (deserialize (sampleBytes sampleWitnessUtxo)).mapErr fun _ => ()) = .ok ([some ⟨1000, []⟩], 1000) := by
    decide +kernel
  obtain ⟨p, hp, hfields⟩ := Outcome.map_eq_ok_iff.1 h
  exact ⟨p, Outcome.mapErr_eq_ok_iff.1 hp, Prod.mk.inj hfields⟩

/-- With a witness UTXO, the result is the documented one at the default limit. -/
theorem extractTxWithFeeRateLimit_documented_sample : ∃ p : Psbt KeyFormats.curve,
    deserialize (sampleBytes sampleWitnessUtxo) = .ok p ∧
      Documented p 6250000 (p.extractTxWithFeeRateLimit 6250000) := by
  obtain ⟨p, hp, hspent, hvalue⟩ := exists_sampleWitnessUtxo
  refine ⟨p, hp, (extractTxWithFeeRateLimit_documented_iff KeyFormats.curve_lawful hp _).2 ⟨?_, ?_⟩⟩
  · rintro ⟨pre, q, post, hspends, -, -, hbounds⟩
    have hq : spentOutput q ∈ p.spends.map spentOutput := List.mem_map_of_mem (by simp [hspends])
    rw [hspent, List.mem_singleton] at hq
    exact not_outOfBounds_of_spentOutput hq hbounds
  · rintro ⟨-, weight, -, -, hlt⟩
    have hle := Nat.div_le_self ((p.spentValue - p.sentValue) * 1000) weight
    have hlimit : UInt64.toNat 6250000 = 6250000 := rfl
    omega

/-- With a previous transaction that has no output at the index, it is a panic. -/
theorem not_documented_sampleNonWitnessUtxo : ∃ p : Psbt KeyFormats.curve,
    deserialize (sampleBytes sampleNonWitnessUtxo) = .ok p ∧
      p.extractTxWithFeeRateLimit 6250000 = .panic .assertion ∧
      ¬Documented p 6250000 (p.extractTxWithFeeRateLimit 6250000) := by
  have h : ((fun p : Psbt KeyFormats.curve => (fun _ => ()) <$>
        (p.extractTxWithFeeRateLimit 6250000).mapErr fun _ => ()) <$>
      (deserialize (sampleBytes sampleNonWitnessUtxo)).mapErr fun _ => ()) = .ok (.panic .assertion) := by
    decide +kernel
  obtain ⟨p, hp, hresult⟩ := Outcome.map_eq_ok_iff.1 h
  have hpanic := Outcome.mapErr_eq_panic_iff.1 (Outcome.map_eq_panic_iff.1 hresult)
  refine ⟨p, Outcome.mapErr_eq_ok_iff.1 hp, hpanic, fun hdoc => ?_⟩
  rw [hpanic] at hdoc
  cases hdoc

end Psbt

end RustDogecoin
