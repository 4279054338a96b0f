import RustDogecoin.Crypto.CurveFormats
import RustDogecoin.Psbt.Map

/-!
# Combining partially signed transactions

`Psbt::combine` with `Input::combine` and `Output::combine`.  Fields are merged in three ways: maps are
extended by the other map, optional fields take the other value where they have none, and the two UTXO
fields and the key sources of extended keys have rules of their own.

Seen through keys, a combined map holds at each key one of the values of the two maps (`Merged`), with two
exceptions in input maps: the sighash type is never taken from the other map, and a non-witness UTXO is
dropped when a witness UTXO is taken over.  The exceptions decide when `combine` is commutative
(`combine_comm_iff`) and when it loses nothing (`combine_losesNothing_iff`).
-/

namespace RustDogecoin

namespace Psbt

variable {S : KeyFormats}

/-- `combine!`. -/
def combineField {α : Type} (slf other : Option α) : Option α :=
  match slf, other with
  | none, some thing => some thing
  | slf, _ => slf

/-- `Input::combine`. -/
def Input.combine (slf other : Input S) : Input S :=
  let nonWitnessUtxo := combineField slf.nonWitnessUtxo other.nonWitnessUtxo
  let (witnessUtxo, nonWitnessUtxo) := match slf.witnessUtxo, other.witnessUtxo with
    | none, some witnessUtxo => (some witnessUtxo, none)
    | witnessUtxo, _ => (witnessUtxo, nonWitnessUtxo)
  { slf with
    nonWitnessUtxo := nonWitnessUtxo
    witnessUtxo := witnessUtxo
    partialSigs := slf.partialSigs.extend other.partialSigs
    bip32Derivation := slf.bip32Derivation.extend other.bip32Derivation
    ripemd160Preimages := slf.ripemd160Preimages.extend other.ripemd160Preimages
    sha256Preimages := slf.sha256Preimages.extend other.sha256Preimages
    hash160Preimages := slf.hash160Preimages.extend other.hash160Preimages
    hash256Preimages := slf.hash256Preimages.extend other.hash256Preimages
    tapScriptSigs := slf.tapScriptSigs.extend other.tapScriptSigs
    tapScripts := slf.tapScripts.extend other.tapScripts
    tapKeyOrigins := slf.tapKeyOrigins.extend other.tapKeyOrigins
    proprietary := slf.proprietary.extend other.proprietary
    unknown := slf.unknown.extend other.unknown
    redeemScript := combineField slf.redeemScript other.redeemScript
    witnessScript := combineField slf.witnessScript other.witnessScript
    finalScriptSig := combineField slf.finalScriptSig other.finalScriptSig
    finalScriptWitness := combineField slf.finalScriptWitness other.finalScriptWitness
    tapKeySig := combineField slf.tapKeySig other.tapKeySig
    tapInternalKey := combineField slf.tapInternalKey other.tapInternalKey
    tapMerkleRoot := combineField slf.tapMerkleRoot other.tapMerkleRoot }

/-- `Output::combine`. -/
def Output.combine (slf other : Output S) : Output S :=
  { slf with
    bip32Derivation := slf.bip32Derivation.extend other.bip32Derivation
    proprietary := slf.proprietary.extend other.proprietary
    unknown := slf.unknown.extend other.unknown
    tapKeyOrigins := slf.tapKeyOrigins.extend other.tapKeyOrigins
    redeemScript := combineField slf.redeemScript other.redeemScript
    witnessScript := combineField slf.witnessScript other.witnessScript
    tapInternalKey := combineField slf.tapInternalKey other.tapInternalKey
    tapTree := combineField slf.tapTree other.tapTree }

/-- One turn of the loop that merges extended keys.  The subtraction of the lengths in the second slice is
not guarded. -/
def mergeXpub (xpubs : BTreeMap (Bip32.Xpub S.toSecp256k1) KeySource) (xpub : Bip32.Xpub S.toSecp256k1)
    (source : KeySource) : Outcome (Error S) (BTreeMap (Bip32.Xpub S.toSecp256k1) KeySource) :=
  match xpubs[xpub]? with
  | none => .ok (xpubs.insert xpub source)
  | some (fingerprint2, derivation2) =>
    let (fingerprint1, derivation1) := source
    if (derivation1 = derivation2 ∧ fingerprint1 = fingerprint2) ∨
        (derivation1.length < derivation2.length ∧
          derivation1 = derivation2.drop (derivation2.length - derivation1.length)) then
      .ok xpubs
    else do
      .require (derivation2.length ≤ derivation1.length) .overflow
      if derivation2 = derivation1.drop (derivation1.length - derivation2.length) then
        return xpubs.insert xpub (fingerprint1, derivation1)
      else .err (.combineInconsistentKeySources xpub)

/-- The loop over the extended keys of the other transaction; what was merged before an error stays. -/
def mergeXpubs : List (Bip32.Xpub S.toSecp256k1 × KeySource) →
    BTreeMap (Bip32.Xpub S.toSecp256k1) KeySource →
    BTreeMap (Bip32.Xpub S.toSecp256k1) KeySource × Outcome (Error S) Unit
  | [], xpubs => (xpubs, .ok ())
  | (xpub, source) :: rest, xpubs =>
    match mergeXpub xpubs xpub source with
    | .ok xpubs' => mergeXpubs rest xpubs'
    | .err e => (xpubs, .err e)
    | .panic p => (xpubs, .panic p)

/-- The loops over zipped maps: those without a partner stay as they are. -/
def combineZip {α : Type} (f : α → α → α) : List α → List α → List α
  | a :: as, b :: bs => f a b :: combineZip f as bs
  | as, _ => as

/-- `Psbt::combine`: what becomes of `self`, and the result. -/
def combine (slf other : Psbt S) : Psbt S × Outcome (Error S) Unit :=
  if slf.unsignedTx ≠ other.unsignedTx then
    (slf, .err (.unexpectedUnsignedTx slf.unsignedTx other.unsignedTx))
  else
    let slf := { slf with version := max slf.version other.version }
    let (xpub, result) := mergeXpubs other.xpub.toList slf.xpub
    let slf := { slf with xpub := xpub }
    match result with
    | .ok () =>
      ({ slf with
          proprietary := slf.proprietary.extend other.proprietary
          unknown := slf.unknown.extend other.unknown
          inputs := combineZip Input.combine slf.inputs other.inputs
          outputs := combineZip Output.combine slf.outputs other.outputs }, .ok ())
    | result => (slf, result)

/-! ## Input and output maps -/

theorem merged_combineField {α : Type} (x y : Option α) : Merged x y (combineField x y) := by
  cases x with
  | none => cases y <;> exact Or.inl rfl
  | some v => exact Or.inl rfl

theorem Output.merged_combine (a b : Output S) (k : Output.Key S) :
    Merged (a.get k) (b.get k) ((a.combine b).get k) := by
  cases k with
  | bip32Derivation | tapBip32Derivation | proprietary | unknown => exact BTreeMap.merged_extend _ _ _
  | redeemScript | witnessScript | tapInternalKey | tapTree => exact merged_combineField _ _

theorem Output.combine_comm {a b : Output S} (h : Agree a.get b.get) : a.combine b = b.combine a := by
  apply Output.ext_get
  intro k
  rw [(a.merged_combine b k).eq_or (h k), (b.merged_combine a k).symm.eq_or (h k)]

namespace Input

/-- The witness UTXO of the other map is taken over. -/
def TakesOver (a b : Input S) : Prop := a.witnessUtxo = none ∧ b.witnessUtxo ≠ none

instance (a b : Input S) : Decidable (a.TakesOver b) := inferInstanceAs (Decidable (_ ∧ _))

theorem sighashType_combine (a b : Input S) : (a.combine b).sighashType = a.sighashType := rfl

theorem nonWitnessUtxo_combine (a b : Input S) :
    (a.combine b).nonWitnessUtxo =
      if a.TakesOver b then none else combineField a.nonWitnessUtxo b.nonWitnessUtxo := by
  cases ha : a.witnessUtxo <;> cases hb : b.witnessUtxo <;> simp [combine, TakesOver, ha, hb]

theorem witnessUtxo_combine (a b : Input S) :
    (a.combine b).witnessUtxo = combineField a.witnessUtxo b.witnessUtxo := by
  cases ha : a.witnessUtxo <;> cases hb : b.witnessUtxo <;> simp [combine, combineField, ha, hb]

/-- The keys that are merged without exception. -/
def Key.Regular : Key S → Prop
  | nonWitnessUtxo | sighashType => False
  | _ => True

theorem Key.regular_cases (k : Key S) : k = nonWitnessUtxo ∨ k = sighashType ∨ k.Regular := by
  cases k <;> simp [Regular]

theorem merged_combine (a b : Input S) {k : Key S} (hk : k.Regular) :
    Merged (a.get k) (b.get k) ((a.combine b).get k) := by
  cases k with
  | nonWitnessUtxo | sighashType => exact hk.elim
  | witnessUtxo =>
    rw [get, get, get, witnessUtxo_combine]
    exact merged_combineField _ _
  | redeemScript | witnessScript | finalScriptSig | finalScriptWitness | tapKeySig | tapInternalKey |
    tapMerkleRoot => exact merged_combineField _ _
  | partialSig | bip32Derivation | ripemd160 | sha256 | hash160 | hash256 | tapScriptSig | tapLeafScript |
    tapBip32Derivation | proprietary | unknown => exact BTreeMap.merged_extend _ _ _

/-- The sighash types are the same, and so is the presence of witness UTXOs, unless no non-witness UTXO
can be dropped. -/
def Commutes (a b : Input S) : Prop :=
  a.sighashType = b.sighashType ∧ (a.witnessUtxo.isSome = b.witnessUtxo.isSome ∨
    (a.nonWitnessUtxo = none ∧ b.nonWitnessUtxo = none))

/-- Without conflicting values, the non-witness UTXO depends on the order only through the takeover. -/
theorem nonWitnessUtxo_comm_iff {a b : Input S} (h : Agree a.get b.get) :
    (a.combine b).nonWitnessUtxo = (b.combine a).nonWitnessUtxo ↔
      a.witnessUtxo.isSome = b.witnessUtxo.isSome ∨
        (a.nonWitnessUtxo = none ∧ b.nonWitnessUtxo = none) := by
  have hfield : combineField b.nonWitnessUtxo a.nonWitnessUtxo =
      combineField a.nonWitnessUtxo b.nonWitnessUtxo := by
    rw [(merged_combineField a.nonWitnessUtxo b.nonWitnessUtxo).eq_or (h .nonWitnessUtxo),
      (merged_combineField b.nonWitnessUtxo a.nonWitnessUtxo).symm.eq_or (h .nonWitnessUtxo)]
  have hnone : combineField a.nonWitnessUtxo b.nonWitnessUtxo = none ↔
      a.nonWitnessUtxo = none ∧ b.nonWitnessUtxo = none := by
    cases a.nonWitnessUtxo <;> cases b.nonWitnessUtxo <;> simp [combineField]
  rw [nonWitnessUtxo_combine, nonWitnessUtxo_combine, hfield, ← hnone]
  cases ha : a.witnessUtxo <;> cases hb : b.witnessUtxo <;> simp [TakesOver, ha, hb, eq_comm]

theorem combine_eq_swap_iff {a b : Input S} (h : Agree a.get b.get) :
    a.combine b = b.combine a ↔ a.Commutes b := by
  constructor
  · intro heq
    have hsighash : (a.combine b).sighashType = (b.combine a).sighashType := by rw [heq]
    have hutxo : (a.combine b).nonWitnessUtxo = (b.combine a).nonWitnessUtxo := by rw [heq]
    exact ⟨hsighash, (nonWitnessUtxo_comm_iff h).1 hutxo⟩
  · rintro ⟨hsighash, hutxo⟩
    apply ext_get
    intro k
    rcases k.regular_cases with rfl | rfl | hk
    · exact (nonWitnessUtxo_comm_iff h).2 hutxo
    · exact hsighash
    · rw [(a.merged_combine b hk).eq_or (h k), (b.merged_combine a hk).symm.eq_or (h k)]

end Input

/-! ## Extended keys -/

section Xpubs

variable {xpubs xpubs' : BTreeMap (Bip32.Xpub S.toSecp256k1) KeySource} {xpub : Bip32.Xpub S.toSecp256k1}
  {source : KeySource}

/-- One turn leaves the map as it is where the key is there, or sets the key to the new source. -/
theorem mergeXpub_cases (h : mergeXpub xpubs xpub source = .ok xpubs') :
    (xpubs' = xpubs ∧ xpubs[xpub]?.isSome) ∨ xpubs' = xpubs.insert xpub source := by
  unfold mergeXpub at h
  cases hget : xpubs[xpub]? with
  | none =>
    rw [hget] at h
    exact Or.inr (Outcome.ok.inj h).symm
  | some source2 =>
    rw [hget] at h
    dsimp only at h
    split_ifs at h with hkeep htake
    · exact Or.inl ⟨(Outcome.ok.inj h).symm, rfl⟩
    · obtain ⟨-, h⟩ := Outcome.require_bind_eq_ok_iff.1 h
      exact Or.inr (Outcome.ok.inj h).symm
    · obtain ⟨-, h⟩ := Outcome.require_bind_eq_ok_iff.1 h
      cases h

theorem mergeXpub_of_agree (h : ∀ source', xpubs[xpub]? = some source' → source = source') :
    mergeXpub xpubs xpub source = .ok (if xpub ∈ xpubs then xpubs else xpubs.insert xpub source) := by
  unfold mergeXpub
  cases hget : xpubs[xpub]? with
  | none =>
    rw [if_neg]
    rw [Std.ExtTreeMap.mem_iff_isSome_getElem?, hget]
    exact Bool.false_ne_true
  | some source2 =>
    obtain rfl := h source2 hget
    rw [if_pos (by rw [Std.ExtTreeMap.mem_iff_isSome_getElem?, hget]; rfl)]
    exact if_pos (Or.inl ⟨rfl, rfl⟩)

/-- One turn merges at its key and touches no other. -/
theorem merged_mergeXpub (h : mergeXpub xpubs xpub source = .ok xpubs') (k : Bip32.Xpub S.toSecp256k1) :
    Merged xpubs[k]? (if xpub = k then some source else none) xpubs'[k]? := by
  rcases mergeXpub_cases h with ⟨rfl, hsome⟩ | rfl
  · left
    split_ifs with hk
    · subst hk
      obtain ⟨source2, hget⟩ := Option.isSome_iff_exists.1 hsome
      rw [hget, Option.some_or]
    · rw [Option.or_none]
  · right
    rw [BTreeMap.getElem?_insert]
    split_ifs <;> simp

/-- The whole loop merges the entries of a list with distinct keys. -/
theorem merged_mergeXpubs {entries : List (Bip32.Xpub S.toSecp256k1 × KeySource)}
    (hdistinct : entries.Pairwise fun a b => a.1 ≠ b.1) (h : mergeXpubs entries xpubs = (xpubs', .ok ()))
    (k : Bip32.Xpub S.toSecp256k1) : Merged xpubs[k]? (entries.lookup k) xpubs'[k]? := by
  induction entries generalizing xpubs with
  | nil =>
    cases h
    exact Or.inl (by simp)
  | cons entry entries ih =>
    obtain ⟨xpub, source⟩ := entry
    rw [List.pairwise_cons] at hdistinct
    rw [mergeXpubs] at h
    cases hstep : mergeXpub xpubs xpub source with
    | err e =>
      rw [hstep] at h
      cases h
    | panic p =>
      rw [hstep] at h
      cases h
    | ok xpubs₁ =>
      rw [hstep] at h
      exact BTreeMap.merged_cons hdistinct.1 (merged_mergeXpub hstep k) (ih hdistinct.2 h)

theorem mergeXpubs_of_agree {entries : List (Bip32.Xpub S.toSecp256k1 × KeySource)}
    (hdistinct : entries.Pairwise fun a b => a.1 ≠ b.1)
    (h : ∀ entry ∈ entries, ∀ source', xpubs[entry.1]? = some source' → entry.2 = source') :
    (mergeXpubs entries xpubs).2 = .ok () := by
  induction entries generalizing xpubs with
  | nil => rfl
  | cons entry entries ih =>
    obtain ⟨xpub, source⟩ := entry
    rw [List.pairwise_cons] at hdistinct
    rw [mergeXpubs, mergeXpub_of_agree (h _ List.mem_cons_self)]
    apply ih hdistinct.2
    intro entry hentry source' hget
    apply h entry (List.mem_cons_of_mem _ hentry)
    split_ifs at hget
    · exact hget
    · rwa [BTreeMap.getElem?_insert, if_neg (hdistinct.1 entry hentry)] at hget

end Xpubs

/-! ## Zipped maps -/

section Zip

variable {α : Type} (f : α → α → α)

theorem length_combineZip (as bs : List α) : (combineZip f as bs).length = as.length := by
  induction as generalizing bs with
  | nil => rfl
  | cons a as ih =>
    cases bs with
    | nil => rfl
    | cons b bs => rw [combineZip, List.length_cons, ih, List.length_cons]

theorem getElem?_combineZip (as bs : List α) (i : ℕ) :
    (combineZip f as bs)[i]? = as[i]?.map fun a => (bs[i]?.map (f a)).getD a := by
  induction as generalizing bs i with
  | nil => simp [combineZip]
  | cons a as ih =>
    cases bs with
    | nil => simp [combineZip]
    | cons b bs =>
      cases i with
      | zero => rfl
      | succ i => simp [combineZip, ih]

/-- Lists of the same length combine either way to the same list exactly if their elements do. -/
theorem combineZip_comm_iff (as bs : List α) :
    combineZip f as bs = combineZip f bs as ↔
      as.length = bs.length ∧ ∀ (i : ℕ) (a b : α), as[i]? = some a → bs[i]? = some b → f a b = f b a := by
  constructor
  · intro h
    have hlen := congrArg List.length h
    rw [length_combineZip, length_combineZip] at hlen
    refine ⟨hlen, fun i a b ha hb => ?_⟩
    have hi : (combineZip f as bs)[i]? = (combineZip f bs as)[i]? := by rw [h]
    rw [getElem?_combineZip, getElem?_combineZip, ha, hb] at hi
    simpa using hi
  · rintro ⟨hlen, h⟩
    apply List.ext_getElem?
    intro i
    rw [getElem?_combineZip, getElem?_combineZip]
    cases ha : as[i]? with
    | none =>
      have hb : bs[i]? = none := by
        rw [List.getElem?_eq_none_iff] at ha ⊢
        omega
      rw [hb]
    | some a =>
      have hlt : i < bs.length := by
        rw [← hlen]
        exact (List.getElem?_eq_some_iff.1 ha).1
      have hb : bs[i]? = some bs[i] := List.getElem?_eq_getElem hlt
      rw [hb]
      simp [h i a _ ha hb]

end Zip

/-! ## Whole transactions -/

/-- Two transactions hold the same value wherever both hold one. -/
structure NoConflict (A B : Psbt S) : Prop where
  global : Agree A.get B.get
  inputs : ∀ (i : ℕ) (a b : Input S), A.inputs[i]? = some a → B.inputs[i]? = some b → Agree a.get b.get
  outputs : ∀ (i : ℕ) (a b : Output S), A.outputs[i]? = some a → B.outputs[i]? = some b →
    Agree a.get b.get

theorem NoConflict.symm {A B : Psbt S} (h : NoConflict A B) : NoConflict B A where
  global := h.global.symm
  inputs := fun i a b ha hb => (h.inputs i b a hb ha).symm
  outputs := fun i a b ha hb => (h.outputs i b a hb ha).symm

theorem ext_get {A B : Psbt S} (hglobal : ∀ k, A.get k = B.get k) (hin : A.inputs = B.inputs)
    (hout : A.outputs = B.outputs) : A = B := by
  have htx := Option.some.inj (hglobal .unsignedTx)
  have hxpub : A.xpub = B.xpub := BTreeMap.ext fun k => hglobal (.xpub k)
  have hproprietary : A.proprietary = B.proprietary := BTreeMap.ext fun k => hglobal (.proprietary k)
  have hunknown : A.unknown = B.unknown := BTreeMap.ext fun k => hglobal (.unknown k)
  have hversion : A.version = B.version := by
    have hzero : ∀ v : UInt32, ¬0 < v → v = 0 := fun v h => by
      rw [UInt32.lt_iff_toNat_lt, UInt32.toNat_zero] at h
      exact UInt32.toNat_inj.1 (by rw [UInt32.toNat_zero]; omega)
    have h := hglobal .version
    simp only [get] at h
    split_ifs at h with ha hb hb
    · exact Option.some.inj h
    · rw [hzero _ ha, hzero _ hb]
  cases A
  cases B
  simp only at *
  simp only [*]

/-- `combine` returns exactly if the unsigned transactions are the same and the extended keys can be
merged. -/
theorem combine_eq_ok_iff {A B C : Psbt S} :
    A.combine B = (C, .ok ()) ↔ A.unsignedTx = B.unsignedTx ∧ ∃ xpubs,
      mergeXpubs B.xpub.toList A.xpub = (xpubs, .ok ()) ∧ C =
        { unsignedTx := A.unsignedTx
          version := max A.version B.version
          xpub := xpubs
          proprietary := A.proprietary.extend B.proprietary
          unknown := A.unknown.extend B.unknown
          inputs := combineZip Input.combine A.inputs B.inputs
          outputs := combineZip Output.combine A.outputs B.outputs } := by
  unfold combine
  by_cases htx : A.unsignedTx = B.unsignedTx
  · rw [if_neg (not_not.2 htx), and_iff_right htx]
    dsimp only
    generalize mergeXpubs B.xpub.toList A.xpub = merged
    obtain ⟨xpubs, result⟩ := merged
    cases result with
    | ok => simp [eq_comm]
    | err e => simp
    | panic p => simp
  · rw [if_pos htx]
    simp [htx]

/-- The higher version is that of one of the two, and zero only if both are. -/
theorem merged_version (a b : UInt32) :
    Merged (if 0 < a then some a else none) (if 0 < b then some b else none)
      (if 0 < max a b then some (max a b) else none) := by
  have hmax : max a b = if a ≤ b then b else a := rfl
  rw [hmax]
  split_ifs with hle hb ha ha' hb'
  all_goals simp_all [Merged, UInt32.lt_iff_toNat_lt, UInt32.le_iff_toNat_le]

/-- The global map is merged at every key. -/
theorem merged_combine {A B C : Psbt S} (h : A.combine B = (C, .ok ())) (k : GlobalKey S) :
    Merged (A.get k) (B.get k) (C.get k) := by
  obtain ⟨htx, xpubs, hxpubs, rfl⟩ := combine_eq_ok_iff.1 h
  cases k with
  | unsignedTx => exact Or.inl rfl
  | xpub k =>
    have hmerged := merged_mergeXpubs B.xpub.pairwise_toList hxpubs k
    rwa [BTreeMap.lookup_toList] at hmerged
  | version => exact merged_version A.version B.version
  | proprietary k => exact BTreeMap.merged_extend _ _ _
  | unknown k => exact BTreeMap.merged_extend _ _ _

theorem combine_of_noConflict {A B : Psbt S} (htx : A.unsignedTx = B.unsignedTx) (h : NoConflict A B) :
    ∃ C, A.combine B = (C, .ok ()) := by
  have hxpubs : (mergeXpubs B.xpub.toList A.xpub).2 = .ok () := by
    apply mergeXpubs_of_agree B.xpub.pairwise_toList
    rintro ⟨xpub, source⟩ hentry source' hget
    exact (h.global (.xpub xpub) source' source hget ((BTreeMap.mem_toList_iff _ _ _).1 hentry)).symm
  exact ⟨_, combine_eq_ok_iff.2 ⟨htx, _, Prod.ext rfl hxpubs, rfl⟩⟩

/-- There are as many maps on either side, and the input maps commute pairwise. -/
structure Commutes (A B : Psbt S) : Prop where
  inputs_length : A.inputs.length = B.inputs.length
  outputs_length : A.outputs.length = B.outputs.length
  inputs : ∀ (i : ℕ) (a b : Input S), A.inputs[i]? = some a → B.inputs[i]? = some b → a.Commutes b

/-- Transactions without conflicting values combine in either order to the same transaction exactly if
their maps match in number, and every two input maps hold the same sighash type and both or neither a
witness UTXO, where there is a non-witness UTXO to lose. -/
theorem combine_comm_iff {A B : Psbt S} (htx : A.unsignedTx = B.unsignedTx) (h : NoConflict A B) :
    (∃ C, A.combine B = (C, .ok ()) ∧ B.combine A = (C, .ok ())) ↔ Commutes A B := by
  obtain ⟨C, hC⟩ := combine_of_noConflict htx h
  obtain ⟨D, hD⟩ := combine_of_noConflict htx.symm h.symm
  have hin : C.inputs = D.inputs ↔ A.inputs.length = B.inputs.length ∧
      ∀ (i : ℕ) (a b : Input S), A.inputs[i]? = some a → B.inputs[i]? = some b → a.Commutes b := by
    obtain ⟨-, xpubs, -, rfl⟩ := combine_eq_ok_iff.1 hC
    obtain ⟨-, xpubs', -, rfl⟩ := combine_eq_ok_iff.1 hD
    rw [combineZip_comm_iff]
    refine and_congr_right fun _ => forall_congr' fun i => forall_congr' fun a => forall_congr' fun b =>
      forall_congr' fun ha => forall_congr' fun hb => ?_
    exact Input.combine_eq_swap_iff (h.inputs i a b ha hb)
  have hout : C.outputs = D.outputs ↔ A.outputs.length = B.outputs.length := by
    obtain ⟨-, xpubs, -, rfl⟩ := combine_eq_ok_iff.1 hC
    obtain ⟨-, xpubs', -, rfl⟩ := combine_eq_ok_iff.1 hD
    rw [combineZip_comm_iff]
    exact and_iff_left fun i a b ha hb => Output.combine_comm (h.outputs i a b ha hb)
  constructor
  · rintro ⟨E, hE, hE'⟩
    obtain rfl : E = C := (Prod.mk.inj (hE.symm.trans hC)).1
    obtain rfl : E = D := (Prod.mk.inj (hE'.symm.trans hD)).1
    obtain ⟨hlen, hcomm⟩ := hin.1 rfl
    exact ⟨hlen, hout.1 rfl, hcomm⟩
  · rintro ⟨hlen, hlen', hcomm⟩
    have hglobal : ∀ k, C.get k = D.get k := by
      intro k
      rw [(merged_combine hC k).eq_or (h.global k), (merged_combine hD k).symm.eq_or (h.global k)]
    obtain rfl : C = D := ext_get hglobal (hin.2 ⟨hlen, hcomm⟩) (hout.2 hlen')
    exact ⟨C, hC, hD⟩

/-- A transaction with one input and no outputs. -/
def sampleTx : Transaction where
  version := 2
  lockTime := .blocks 0 zero_lt_threshold
  input := [⟨⟨U8Array.replicate 32 0, 0⟩, [], 0, Witness.new⟩]
  output := []

/-- A redeem script, and a sighash type if one is given. -/
def sampleRedeem (sighashType : Option PsbtSighashType) : Psbt .curve where
  unsignedTx := sampleTx
  inputs := [{ sighashType := sighashType, redeemScript := some [0x51] }]

/-- A witness script, and a sighash type if one is given. -/
def sampleWitness (sighashType : Option PsbtSighashType) : Psbt .curve where
  unsignedTx := sampleTx
  inputs := [{ sighashType := sighashType, witnessScript := some [0x52] }]

theorem unsignedTx_samples (x y : Option PsbtSighashType) :
    (sampleRedeem x).unsignedTx = (sampleWitness y).unsignedTx := rfl

theorem noConflict_samples {x y : Option PsbtSighashType} (h : x = none ∨ y = none ∨ x = y) :
    NoConflict (sampleRedeem x) (sampleWitness y) where
  global := agree_of_cases fun k => by cases k <;> exact Or.inr (Or.inr rfl)
  inputs := by
    intro i a b ha hb
    cases i with
    | succ i => cases ha
    | zero =>
      cases ha
      cases hb
      apply agree_of_cases
      intro k
      cases k with
      | sighashType => exact h
      | redeemScript => exact Or.inr (Or.inl rfl)
      | _ => exact Or.inl rfl
  outputs := by
    intro i a b ha
    cases ha

theorem combine_comm_iff_sample :
    NoConflict (sampleRedeem (some ⟨1⟩)) (sampleWitness (some ⟨1⟩)) ∧
      ∃ C, (sampleRedeem (some ⟨1⟩)).combine (sampleWitness (some ⟨1⟩)) = (C, .ok ()) ∧
        (sampleWitness (some ⟨1⟩)).combine (sampleRedeem (some ⟨1⟩)) = (C, .ok ()) := by
  have h := noConflict_samples (x := some ⟨1⟩) (y := some ⟨1⟩) (Or.inr (Or.inr rfl))
  refine ⟨h, (combine_comm_iff (unsignedTx_samples _ _) h).2 ⟨rfl, rfl, ?_⟩⟩
  intro i a b ha hb
  cases i with
  | succ i => cases ha
  | zero =>
    cases ha
    cases hb
    exact ⟨rfl, Or.inl rfl⟩

/-- A sighash type that only one transaction has stays only if that transaction is combined with the other,
and not the other way round. -/
theorem combine_not_comm :
    (sampleRedeem (some ⟨1⟩)).unsignedTx = (sampleWitness none).unsignedTx ∧
      NoConflict (sampleRedeem (some ⟨1⟩)) (sampleWitness none) ∧
      ¬∃ C, (sampleRedeem (some ⟨1⟩)).combine (sampleWitness none) = (C, .ok ()) ∧
        (sampleWitness none).combine (sampleRedeem (some ⟨1⟩)) = (C, .ok ()) := by
  refine ⟨rfl, noConflict_samples (Or.inr (Or.inl rfl)), ?_⟩
  rintro ⟨C, h, h'⟩
  obtain ⟨-, xpubs, -, hC⟩ := combine_eq_ok_iff.1 h
  obtain ⟨-, xpubs', -, hC'⟩ := combine_eq_ok_iff.1 h'
  have hsome : C.inputs.map Input.sighashType = [some ⟨1⟩] := by rw [hC]; rfl
  have hnone : C.inputs.map Input.sighashType = [none] := by rw [hC']; rfl
  rw [hsome] at hnone
  cases hnone

/-! ### What is lost -/

/-- Every key of the two transactions is there in the result, except a non-witness UTXO where a witness
UTXO was taken over, and keys of only one of them have their value. -/
structure LosesNothing (A B C : Psbt S) : Prop where
  global : ∀ k, Kept (A.get k) (B.get k) (C.get k)
  inputs : ∀ i k, Kept (A.inputGet i k) (B.inputGet i k) (C.inputGet i k) ∨
    (k = .nonWitnessUtxo ∧ A.inputGet i .witnessUtxo = none ∧ B.inputGet i .witnessUtxo ≠ none)
  outputs : ∀ i k, Kept (A.outputGet i k) (B.outputGet i k) (C.outputGet i k)

/-- No input map of `B` has a sighash type where that of `A` has none, and maps that only `B` has are
empty. -/
structure Covers (A B : Psbt S) : Prop where
  sighashType : ∀ (i : ℕ) (a b : Input S), A.inputs[i]? = some a → B.inputs[i]? = some b →
    a.sighashType = none → b.sighashType = none
  inputs : ∀ (i : ℕ) (b : Input S), A.inputs[i]? = none → B.inputs[i]? = some b → b = {}
  outputs : ∀ (i : ℕ) (b : Output S), A.outputs[i]? = none → B.outputs[i]? = some b → b = {}

theorem kept_left {α : Type} (x : Option α) : Kept x none x := Merged.kept (Or.inr rfl)

theorem Input.kept_combine {a b : Input S} (h : a.sighashType = none → b.sighashType = none)
    (k : Input.Key S) : Kept (a.get k) (b.get k) ((a.combine b).get k) ∨
      (k = .nonWitnessUtxo ∧ a.get .witnessUtxo = none ∧ b.get .witnessUtxo ≠ none) := by
  rcases k.regular_cases with rfl | rfl | hk
  · by_cases htake : a.TakesOver b
    · exact Or.inr ⟨rfl, htake⟩
    · left
      rw [get, get, get, nonWitnessUtxo_combine, if_neg htake]
      exact (merged_combineField _ _).kept
  · left
    rw [get, get, get, sighashType_combine]
    cases ha : a.sighashType with
    | none =>
      rw [h ha]
      exact kept_left none
    | some ty => exact Merged.kept (Or.inl rfl)
  · exact Or.inl (a.merged_combine b hk).kept

/-- The maps of a combined transaction at an index. -/
theorem getElem?_combine {A B C : Psbt S} (h : A.combine B = (C, .ok ())) (i : ℕ) :
    C.inputs[i]? = A.inputs[i]?.map (fun a => (B.inputs[i]?.map (Input.combine a)).getD a) ∧
      C.outputs[i]? = A.outputs[i]?.map fun a => (B.outputs[i]?.map (Output.combine a)).getD a := by
  obtain ⟨-, xpubs, -, rfl⟩ := combine_eq_ok_iff.1 h
  exact ⟨getElem?_combineZip _ _ _ _, getElem?_combineZip _ _ _ _⟩

theorem losesNothing_of_covers {A B C : Psbt S} (h : A.combine B = (C, .ok ())) (hcovers : Covers A B) :
    LosesNothing A B C := by
  refine ⟨fun k => (merged_combine h k).kept, fun i k => ?_, fun i k => ?_⟩
  · simp only [inputGet, (getElem?_combine h i).1]
    cases ha : A.inputs[i]? with
    | none =>
      left
      cases hb : B.inputs[i]? with
      | none => exact kept_left none
      | some b =>
        rw [hcovers.inputs i b ha hb, Option.bind_some, Input.get_empty]
        exact kept_left none
    | some a =>
      cases hb : B.inputs[i]? with
      | none => exact Or.inl (kept_left _)
      | some b => exact Input.kept_combine (hcovers.sighashType i a b ha hb) k
  · simp only [outputGet, (getElem?_combine h i).2]
    cases ha : A.outputs[i]? with
    | none =>
      cases hb : B.outputs[i]? with
      | none => exact kept_left none
      | some b =>
        rw [hcovers.outputs i b ha hb, Option.bind_some, Output.get_empty]
        exact kept_left none
    | some a =>
      cases hb : B.outputs[i]? with
      | none => exact kept_left _
      | some b => exact (a.merged_combine b k).kept

theorem eq_none_of_kept {α : Type} {x : Option α} (h : Kept none x none) : x = none := by
  simpa [Option.isSome_iff_ne_none] using h.isSome

/-- A map without a partner has no place in the result. -/
theorem Input.eq_empty_of_kept {b : Input S} (h : ∀ k, Kept none (b.get k) none ∨
    (k = .nonWitnessUtxo ∧ b.get .witnessUtxo ≠ none)) : b = {} := by
  have hnone : ∀ k, k ≠ .nonWitnessUtxo → b.get k = none := by
    intro k hk
    exact eq_none_of_kept ((h k).resolve_right fun hright => hk hright.1)
  apply Input.ext_get
  intro k
  rw [Input.get_empty]
  by_cases hk : k = .nonWitnessUtxo
  · subst hk
    exact eq_none_of_kept ((h .nonWitnessUtxo).resolve_right fun hright =>
      hright.2 (hnone .witnessUtxo (by simp)))
  · exact hnone k hk

theorem covers_of_losesNothing {A B C : Psbt S} (h : A.combine B = (C, .ok ()))
    (hkept : LosesNothing A B C) : Covers A B where
  sighashType := by
    intro i a b ha hb hnone
    rcases hkept.inputs i .sighashType with hk | ⟨hkey, -⟩
    · rw [inputGet, inputGet, inputGet, (getElem?_combine h i).1, ha, hb] at hk
      have hsighash : Kept a.sighashType b.sighashType a.sighashType := hk
      rw [hnone] at hsighash
      exact eq_none_of_kept hsighash
    · cases hkey
  inputs := by
    intro i b ha hb
    apply Input.eq_empty_of_kept
    intro k
    have hk := hkept.inputs i k
    simp only [inputGet, (getElem?_combine h i).1, ha, hb] at hk
    exact hk.imp_right fun hright => ⟨hright.1, hright.2.2⟩
  outputs := by
    intro i b ha hb
    apply Output.ext_get
    intro k
    have hk := hkept.outputs i k
    simp only [outputGet, (getElem?_combine h i).2, ha, hb] at hk
    rw [Output.get_empty]
    exact eq_none_of_kept hk

/-- What `combine` loses are the sighash types that only the other transaction has, and what is in maps
without a partner; without these it loses nothing. -/
theorem combine_losesNothing_iff {A B C : Psbt S} (h : A.combine B = (C, .ok ())) :
    LosesNothing A B C ↔ Covers A B := by
  constructor
  · intro hkept
    exact covers_of_losesNothing h hkept
  · intro hcovers
    exact losesNothing_of_covers h hcovers

theorem combine_losesNothing_iff_sample :
    ∃ C, (sampleRedeem (some ⟨1⟩)).combine (sampleWitness none) = (C, .ok ()) ∧
      LosesNothing (sampleRedeem (some ⟨1⟩)) (sampleWitness none) C := by
  obtain ⟨C, hC⟩ := combine_of_noConflict (unsignedTx_samples (some ⟨1⟩) none)
    (noConflict_samples (Or.inr (Or.inl rfl)))
  refine ⟨C, hC, (combine_losesNothing_iff hC).2 ⟨?_, ?_, ?_⟩⟩
  · intro i a b ha hb
    cases i with
    | succ i => cases ha
    | zero =>
      cases ha
      cases hb
      intro
      rfl
  · intro i b ha hb
    cases i with
    | succ i => cases hb
    | zero => cases ha
  · intro i b ha hb
    cases hb

/-- The sighash type is lost when it comes from the other transaction. -/
theorem combine_loses_sighashType :
    ∃ C, (sampleWitness none).combine (sampleRedeem (some ⟨1⟩)) = (C, .ok ()) ∧
      ¬LosesNothing (sampleWitness none) (sampleRedeem (some ⟨1⟩)) C := by
  obtain ⟨C, hC⟩ := combine_of_noConflict (unsignedTx_samples (some ⟨1⟩) none).symm
    (noConflict_samples (Or.inr (Or.inl rfl))).symm
  refine ⟨C, hC, fun h => ?_⟩
  obtain ⟨-, xpubs, -, rfl⟩ := combine_eq_ok_iff.1 hC
  rcases h.inputs 0 .sighashType with hkept | ⟨hkey, -⟩
  · cases hkept.right ⟨1⟩ rfl rfl
  · cases hkey

end Psbt

end RustDogecoin
