import RustDogecoin.Crypto.SighashIndex
import RustDogecoin.Lib.Commit

/-!
# What a taproot signature commits to

A taproot message is the concatenation of fields of known length, of one script with its length, and of
hashes of everything else.  `encode_eq_iff` compares the messages of any two calls: as far as SHA256 tells
the hashed strings apart, the messages are equal exactly when the calls agree on what BIP341 lists for the
sighash type.  The index of the input is written as a `u32`, so that it is committed to modulo `2^32`;
`not_agrees_sampleHuge` has two inputs of one transaction with the same message.
-/

namespace RustDogecoin

open Sighash SighashCache Emit

/-- The arguments of `taproot_encode_signing_data_to`, with all spent outputs. -/
structure TaprootArgs where
  tx : Transaction
  prevouts : List TxOut
  inputIndex : ℕ
  annex : Option Annex
  leafHashCodeSeparator : Option (TapLeafHash × UInt32)
  sighashType : TapSighashType

/-- The strings of a taproot message that are hashed. -/
inductive Preimage where
  | outpoints
  | amounts
  | scripts
  | sequences
  | outputs
  | annex
  | output

namespace TaprootArgs

/-- `taproot_encode_signing_data_to` with a new cache. -/
def encode (a : TaprootArgs) : Emit TaprootError Unit :=
  (taprootEncodeSigningDataTo a.inputIndex (.all a.prevouts) a.annex a.leafHashCodeSeparator a.sighashType
    (new a.tx)).1

/-- The kind of outputs that are signed. -/
def sighash (a : TaprootArgs) : TapSighashType := a.sighashType.splitAnyonecanpayFlag.1

def anyoneCanPay (a : TaprootArgs) : Bool := a.sighashType.splitAnyonecanpayFlag.2

/-- What is hashed.  Where there is no annex or no output at the index, nothing is. -/
def preimage (a : TaprootArgs) : Preimage → Outcome Empty Written
  | .outpoints => Encoder.list OutPoint.codec.consensusEncode (a.tx.input.map TxIn.previousOutput)
  | .amounts => Encoder.list u64.consensusEncode (a.prevouts.map TxOut.value)
  | .scripts => Encoder.list vecU8.consensusEncode (a.prevouts.map TxOut.scriptPubkey)
  | .sequences => Encoder.list u32.consensusEncode (a.tx.input.map TxIn.sequence)
  | .outputs => Encoder.list TxOut.codec.consensusEncode a.tx.output
  | .annex => (a.annex.map fun annex => consensusEncodeWithSize annex.bytes).getD (.ok .empty)
  | .output => (a.tx.output[a.inputIndex]?.map TxOut.codec.consensusEncode).getD (.ok .empty)

/-- Two strings, if they are written, with the same SHA256 hash are equal. -/
def Separates (x y : Outcome Empty Written) : Prop :=
  ∀ w v, x = .ok w → y = .ok v → Sha256.hash w.bytes = Sha256.hash v.bytes → w.bytes = v.bytes

theorem Separates.refl (x : Outcome Empty Written) : Separates x x := by
  intro w v hw hv _
  rw [Outcome.ok.inj (hw.symm.trans hv)]

theorem Separates.of_hashOf_ne {x y : Outcome Empty Written} (h : hashOf x ≠ hashOf y) : Separates x y := by
  rintro w v rfl rfl heq
  exact absurd (congrArg Outcome.ok heq) h

/-- SHA256 has no collision among the strings that are hashed at the same place of the two messages. -/
def NoCollision (a b : TaprootArgs) : Prop := ∀ p, Separates (a.preimage p) (b.preimage p)

/-- The numbers are equal as `u32`. -/
def SameU32 (i j : ℕ) : Prop := i % 2 ^ 32 = j % 2 ^ 32

/-- What is signed of the inputs, where `R` compares the indexes of the inputs. -/
def AgreesOnInputs (R : ℕ → ℕ → Prop) (a b : TaprootArgs) : Prop :=
  if a.anyoneCanPay then
    a.tx.input[a.inputIndex]?.map TxIn.previousOutput = b.tx.input[b.inputIndex]?.map TxIn.previousOutput ∧
      a.tx.input[a.inputIndex]?.map TxIn.sequence = b.tx.input[b.inputIndex]?.map TxIn.sequence ∧
      a.prevouts[a.inputIndex]?.map TxOut.value = b.prevouts[b.inputIndex]?.map TxOut.value ∧
      a.prevouts[a.inputIndex]?.map TxOut.scriptPubkey = b.prevouts[b.inputIndex]?.map TxOut.scriptPubkey
  else
    R a.inputIndex b.inputIndex ∧
      a.tx.input.map TxIn.previousOutput = b.tx.input.map TxIn.previousOutput ∧
      a.tx.input.map TxIn.sequence = b.tx.input.map TxIn.sequence ∧
      a.prevouts.map TxOut.value = b.prevouts.map TxOut.value ∧
      a.prevouts.map TxOut.scriptPubkey = b.prevouts.map TxOut.scriptPubkey

/-- What is signed of the outputs. -/
def AgreesOnOutputs (a b : TaprootArgs) : Prop :=
  match a.sighash with
  | .single => a.tx.output[a.inputIndex]? = b.tx.output[b.inputIndex]?
  | .none => True
  | _ => a.tx.output = b.tx.output

/-- The calls agree on what is signed, where `R` compares the indexes of the inputs. -/
structure Agrees (R : ℕ → ℕ → Prop) (a b : TaprootArgs) : Prop where
  sighashType : a.sighashType = b.sighashType
  version : a.tx.version = b.tx.version
  lockTime : a.tx.lockTime = b.tx.lockTime
  annex : a.annex = b.annex
  leaf : a.leafHashCodeSeparator = b.leafHashCodeSeparator
  inputs : AgreesOnInputs R a b
  outputs : AgreesOnOutputs a b

/-! ## Hashed fields -/

variable {a b : TaprootArgs}

/-- The hash of a string commits to what the string commits to. -/
theorem commits_hash {x y : Outcome Empty Written} {P : Prop} (hsep : Separates x y)
    (hP : ∀ w v, x = .ok w → y = .ok v → (w.bytes = v.bytes ↔ P)) {h h' : Hash} (hx : hashOf x = .ok h)
    (hy : hashOf y = .ok h') :
    Commits (Emit.encode ((u8Array 32).consensusEncode h) : Emit TaprootError Unit)
      (.encode ((u8Array 32).consensusEncode h')) P := by
  obtain ⟨w, hw, rfl⟩ := Outcome.map_eq_ok_iff.1 hx
  obtain ⟨v, hv, rfl⟩ := Outcome.map_eq_ok_iff.1 hy
  apply (Commits.encode (lawful_u8Array 32).finite.roundTrips trivial trivial).congr
  rw [← hP w v hw hv]
  constructor
  · exact hsep w v hw hv
  · exact congrArg Sha256.hash

/-- Bytes of lists are equal where the lists are. -/
theorem list_bytes_iff {α ζ : Type} {enc : Encoder α} {dec : Decoder ζ α}
    (h : RoundTrips enc dec fun _ => True) (hpos : ∀ a w, enc a = .ok w → w.bytes ≠ []) {as bs : List α}
    (w v : Written) (hw : enc.list as = .ok w) (hv : enc.list bs = .ok v) : w.bytes = v.bytes ↔ as = bs := by
  constructor
  · exact h.list_injective hpos hw hv
  · rintro rfl
    rw [Outcome.ok.inj (hw.symm.trans hv)]

theorem bytes_iff {α ζ : Type} {enc : Encoder α} {dec : Decoder ζ α} (h : RoundTrips enc dec fun _ => True)
    {a b : α} (w v : Written) (hw : enc a = .ok w) (hv : enc b = .ok v) : w.bytes = v.bytes ↔ a = b := by
  constructor
  · exact h.encode_injective trivial trivial hw hv
  · rintro rfl
    rw [Outcome.ok.inj (hw.symm.trans hv)]

theorem u32_ne_nil (n : UInt32) (w : Written) (h : u32.consensusEncode n = .ok w) : w.bytes ≠ [] := by
  cases h
  exact List.cons_ne_nil _ _

theorem u64_ne_nil (n : UInt64) (w : Written) (h : u64.consensusEncode n = .ok w) : w.bytes ≠ [] := by
  cases h
  exact List.cons_ne_nil _ _

theorem vecU8_ne_nil (bs : Bytes) (w : Written) (h : vecU8.consensusEncode bs = .ok w) : w.bytes ≠ [] := by
  obtain ⟨v, hv, rfl⟩ := consensusEncodeWithSize_eq_ok_iff.1 h
  have hpos := length_encodeLen_pos hv
  intro hnil
  rw [(List.append_eq_nil_iff.1 hnil).1] at hpos
  exact absurd hpos (Nat.lt_irrefl 0)

theorem txOut_ne_nil (out : TxOut) (w : Written) (h : TxOut.codec.consensusEncode out = .ok w) :
    w.bytes ≠ [] := by
  obtain ⟨w₁, w₂, h₁, -, rfl⟩ := Encoder.seq_eq_ok_iff.1 h
  intro hnil
  exact u64_ne_nil _ w₁ h₁ (List.append_eq_nil_iff.1 hnil).1

theorem outPoint_ne_nil (o : OutPoint) (w : Written) (h : OutPoint.codec.consensusEncode o = .ok w) :
    w.bytes ≠ [] := by
  obtain ⟨w₁, w₂, -, h₂, rfl⟩ := Encoder.seq_eq_ok_iff.1 h
  intro hnil
  exact u32_ne_nil _ w₂ h₂ (List.append_eq_nil_iff.1 hnil).2

theorem hashOf_of_common {tx : Transaction} {c : CommonCache} (h : CommonCache.of tx = .ok c) :
    hashOf (Encoder.list OutPoint.codec.consensusEncode (tx.input.map TxIn.previousOutput)) = .ok c.prevouts ∧
      hashOf (Encoder.list u32.consensusEncode (tx.input.map TxIn.sequence)) = .ok c.sequences ∧
      hashOf (Encoder.list TxOut.codec.consensusEncode tx.output) = .ok c.outputs := by
  obtain ⟨prevouts, hp, h⟩ := Outcome.bind_eq_ok_iff.1 h
  obtain ⟨sequences, hs, h⟩ := Outcome.bind_eq_ok_iff.1 h
  obtain ⟨outputs, ho, h⟩ := Outcome.bind_eq_ok_iff.1 h
  cases h
  exact ⟨hp, hs, ho⟩

theorem hashOf_of_spent {list : List TxOut} {c : TaprootCache} (h : TaprootCache.of list = .ok c) :
    hashOf (Encoder.list u64.consensusEncode (list.map TxOut.value)) = .ok c.amounts ∧
      hashOf (Encoder.list vecU8.consensusEncode (list.map TxOut.scriptPubkey)) = .ok c.scriptPubkeys := by
  obtain ⟨amounts, ha, h⟩ := Outcome.bind_eq_ok_iff.1 h
  obtain ⟨scripts, hs, h⟩ := Outcome.bind_eq_ok_iff.1 h
  cases h
  exact ⟨ha, hs⟩

/-! ## The parts of a message -/

theorem toU8_injective {t t' : TapSighashType} (h : t.toU8 = t'.toU8) : t = t' := by
  revert h
  cases t <;> cases t' <;> decide

theorem commits_control (tx tx' : Transaction) (t t' : TapSighashType) :
    Commits (taprootControl tx t) (taprootControl tx' t')
      (t = t' ∧ tx.version = tx'.version ∧ tx.lockTime = tx'.lockTime) := by
  have hepoch : Commits (Emit.encode (u8.consensusEncode 0) : Emit TaprootError Unit)
      (.encode (u8.consensusEncode 0)) True :=
    (Commits.encode lawful_u8.finite.roundTrips trivial trivial).congr (by simp)
  have htype : Commits (Emit.encode (u8.consensusEncode t.toU8) : Emit TaprootError Unit)
      (.encode (u8.consensusEncode t'.toU8)) (t = t') :=
    (Commits.encode lawful_u8.finite.roundTrips trivial trivial).congr
      ⟨toU8_injective, congrArg TapSighashType.toU8⟩
  refine (hepoch.bind fun _ => htype.bind fun _ => ?_).congr (by rw [true_and])
  exact (Commits.encode lawful_i32.finite.roundTrips trivial trivial).bind fun _ =>
    Commits.encode LockTime.lawful.finite.roundTrips trivial trivial

theorem commits_allInputs (h : NoCollision a b) (anyoneCanPay : Bool) :
    Commits (SigningData.taprootAllInputs a.tx (.all a.prevouts) anyoneCanPay)
      (SigningData.taprootAllInputs b.tx (.all b.prevouts) anyoneCanPay)
      (anyoneCanPay = false →
        a.tx.input.map TxIn.previousOutput = b.tx.input.map TxIn.previousOutput ∧
          a.prevouts.map TxOut.value = b.prevouts.map TxOut.value ∧
          a.prevouts.map TxOut.scriptPubkey = b.prevouts.map TxOut.scriptPubkey ∧
          a.tx.input.map TxIn.sequence = b.tx.input.map TxIn.sequence) := by
  cases anyoneCanPay with
  | true => exact Commits.pure.congr (by simp)
  | false =>
    refine Commits.congr ?_ (forall_prop_of_true rfl).symm
    refine .value fun c c' hc hc' => ?_
    have hcommon := hashOf_of_common (Outcome.lift_eq_ok_iff.1 hc)
    have hcommon' := hashOf_of_common (Outcome.lift_eq_ok_iff.1 hc')
    refine (commits_hash (h .outpoints) (list_bytes_iff OutPoint.lawful.finite.roundTrips outPoint_ne_nil)
      hcommon.1 hcommon'.1).bind fun _ => ?_
    refine .value fun l l' hl hl' => ?_
    cases hl
    cases hl'
    refine .value fun d d' hd hd' => ?_
    refine (commits_hash (h .amounts) (list_bytes_iff lawful_u64.finite.roundTrips u64_ne_nil)
      (hashOf_of_spent (Outcome.lift_eq_ok_iff.1 hd)).1
      (hashOf_of_spent (Outcome.lift_eq_ok_iff.1 hd')).1).bind fun _ => ?_
    refine .value fun l l' hl hl' => ?_
    cases hl
    cases hl'
    refine .value fun d d' hd hd' => ?_
    refine (commits_hash (h .scripts) (list_bytes_iff lawful_vecU8.finite.roundTrips vecU8_ne_nil)
      (hashOf_of_spent (Outcome.lift_eq_ok_iff.1 hd)).2
      (hashOf_of_spent (Outcome.lift_eq_ok_iff.1 hd')).2).bind fun _ => ?_
    refine .value fun c c' hc hc' => ?_
    exact commits_hash (h .sequences) (list_bytes_iff lawful_u32.finite.roundTrips u32_ne_nil)
      (hashOf_of_common (Outcome.lift_eq_ok_iff.1 hc)).2.1
      (hashOf_of_common (Outcome.lift_eq_ok_iff.1 hc')).2.1

theorem commits_allOutputs (h : NoCollision a b) (sighash : TapSighashType) :
    Commits (SigningData.taprootAllOutputs a.tx sighash) (SigningData.taprootAllOutputs b.tx sighash)
      (sighash ≠ .none ∧ sighash ≠ .single → a.tx.output = b.tx.output) := by
  unfold SigningData.taprootAllOutputs
  split_ifs with hall
  · refine Commits.congr ?_ (forall_prop_of_true hall).symm
    refine .value fun c c' hc hc' => ?_
    exact commits_hash (h .outputs) (list_bytes_iff TxOut.lawful.finite.roundTrips txOut_ne_nil)
      (hashOf_of_common (Outcome.lift_eq_ok_iff.1 hc)).2.2
      (hashOf_of_common (Outcome.lift_eq_ok_iff.1 hc')).2.2
  · exact Commits.pure.congr ⟨fun _ hno => absurd hno hall, fun _ => trivial⟩

theorem spendType_eq_iff (annex annex' : Option Annex) (leaf leaf' : Option (TapLeafHash × UInt32)) :
    spendType annex leaf = spendType annex' leaf' ↔
      annex.isSome = annex'.isSome ∧ leaf.isSome = leaf'.isSome := by
  unfold spendType
  cases annex.isSome <;> cases annex'.isSome <;> cases leaf.isSome <;> cases leaf'.isSome <;> decide

theorem commits_annex (h : NoCollision a b) (hsome : a.annex.isSome = b.annex.isSome) :
    Commits (taprootAnnex a.annex) (taprootAnnex b.annex) (a.annex = b.annex) := by
  cases ha : a.annex with
  | none =>
    cases hb : b.annex with
    | none => exact Commits.pure.congr (by simp)
    | some annex' => simp [ha, hb] at hsome
  | some annex =>
    cases hb : b.annex with
    | none => simp [ha, hb] at hsome
    | some annex' =>
      have hsep : Separates (consensusEncodeWithSize annex.bytes) (consensusEncodeWithSize annex'.bytes) := by
        simpa only [preimage, ha, hb, Option.map_some, Option.getD_some] using h .annex
      refine .value fun x x' hx hx' => ?_
      refine commits_hash hsep ?_ (Outcome.lift_eq_ok_iff.1 hx) (Outcome.lift_eq_ok_iff.1 hx')
      intro w v hw hv
      rw [bytes_iff lawful_vecU8.finite.roundTrips w v hw hv, Option.some.injEq]
      obtain ⟨bytes, hhead⟩ := annex
      obtain ⟨bytes', hhead'⟩ := annex'
      rw [Annex.mk.injEq]

theorem commits_leaf {leaf leaf' : Option (TapLeafHash × UInt32)} (hsome : leaf.isSome = leaf'.isSome) :
    Commits (taprootLeaf leaf) (taprootLeaf leaf') (leaf = leaf') := by
  cases leaf with
  | none =>
    cases leaf' with
    | none => exact Commits.pure.congr (by simp)
    | some leaf' => simp at hsome
  | some leaf =>
    cases leaf' with
    | none => simp at hsome
    | some leaf' =>
      have hversion : Commits (Emit.encode (u8.consensusEncode KEY_VERSION_0) : Emit TaprootError Unit)
          (.encode (u8.consensusEncode KEY_VERSION_0)) True :=
        (Commits.encode lawful_u8.finite.roundTrips trivial trivial).congr (by simp)
      refine Commits.congr ((Commits.encode (lawful_u8Array 32).finite.roundTrips trivial trivial).bind
        fun _ => hversion.bind fun _ => Commits.encode lawful_u32.finite.roundTrips trivial trivial) ?_
      rw [true_and, Option.some.injEq, Prod.ext_iff]

theorem commits_singleOutput (h : NoCollision a b) (sighash : TapSighashType) :
    Commits (taprootSingleOutput a.tx a.inputIndex sighash) (taprootSingleOutput b.tx b.inputIndex sighash)
      (sighash = .single → a.tx.output[a.inputIndex]? = b.tx.output[b.inputIndex]?) := by
  unfold taprootSingleOutput
  by_cases hsingle : sighash = .single
  · rw [if_pos hsingle, if_pos hsingle]
    refine Commits.congr ?_ (forall_prop_of_true hsingle).symm
    cases ha : a.tx.output[a.inputIndex]? with
    | none => exact .of_not_returns fun u hu => by cases hu
    | some out =>
      cases hb : b.tx.output[b.inputIndex]? with
      | none =>
        intro u v _ hv
        cases hv
      | some out' =>
        have hsep : Separates (TxOut.codec.consensusEncode out) (TxOut.codec.consensusEncode out') := by
          simpa only [preimage, ha, hb, Option.map_some, Option.getD_some] using h .output
        refine .value fun x x' hx hx' => ?_
        refine commits_hash hsep ?_ (Outcome.lift_eq_ok_iff.1 hx) (Outcome.lift_eq_ok_iff.1 hx')
        intro w v hw hv
        rw [bytes_iff TxOut.lawful.finite.roundTrips w v hw hv, Option.some.injEq]
  · rw [if_neg hsingle, if_neg hsingle]
    exact Commits.pure.congr ⟨fun _ hno => absurd hno hsingle, fun _ => trivial⟩

theorem ofNat_eq_iff (i j : ℕ) : UInt32.ofNat i = UInt32.ofNat j ↔ SameU32 i j := by
  rw [← UInt32.toNat_inj, UInt32.toNat_ofNat', UInt32.toNat_ofNat']
  rfl

theorem of_txIn {tx : Transaction} {i : ℕ} {txin : TxIn}
    (h : (txIn tx i).mapErr TaprootError.inputsIndex = .ok txin) : tx.input[i]? = some txin := by
  have hin := Outcome.mapErr_eq_ok_iff.1 h
  unfold txIn at hin
  split at hin
  · cases hin
    assumption
  · cases hin

theorem of_get {list : List TxOut} {i : ℕ} {out : TxOut} (h : (Prevouts.all list).get i = .ok out) :
    list[i]? = some out := by
  unfold Prevouts.get at h
  dsimp only at h
  split at h
  · cases h
    assumption
  · cases h

theorem commits_ownInput_one (a b : TaprootArgs) :
    Commits (taprootOwnInput a.tx a.inputIndex (.all a.prevouts) true)
      (taprootOwnInput b.tx b.inputIndex (.all b.prevouts) true)
      (a.tx.input[a.inputIndex]?.map TxIn.previousOutput = b.tx.input[b.inputIndex]?.map TxIn.previousOutput ∧
        a.prevouts[a.inputIndex]?.map TxOut.value = b.prevouts[b.inputIndex]?.map TxOut.value ∧
        a.prevouts[a.inputIndex]?.map TxOut.scriptPubkey = b.prevouts[b.inputIndex]?.map TxOut.scriptPubkey ∧
        a.tx.input[a.inputIndex]?.map TxIn.sequence = b.tx.input[b.inputIndex]?.map TxIn.sequence) := by
  refine .value fun txin txin' hin hin' => .value fun out out' hout hout' => ?_
  rw [of_txIn hin, of_txIn hin', of_get hout, of_get hout']
  simp only [Option.map_some, Option.some.injEq]
  refine (Commits.encode OutPoint.lawful.finite.roundTrips trivial trivial).bind fun _ => ?_
  refine (Commits.encode lawful_u64.finite.roundTrips trivial trivial).bind fun _ => ?_
  refine (Commits.encode lawful_vecU8.finite.roundTrips trivial trivial).bind fun _ => ?_
  exact Commits.encode lawful_u32.finite.roundTrips trivial trivial

theorem commits_ownInput_all (a b : TaprootArgs) :
    Commits (taprootOwnInput a.tx a.inputIndex (.all a.prevouts) false)
      (taprootOwnInput b.tx b.inputIndex (.all b.prevouts) false)
      (SameU32 a.inputIndex b.inputIndex) :=
  (Commits.encode lawful_u32.finite.roundTrips trivial trivial).congr (ofNat_eq_iff _ _)

/-! ## The message -/

theorem encode_eq (a : TaprootArgs) : a.encode =
    SigningData.taproot a.tx a.inputIndex (.all a.prevouts) a.annex a.leafHashCodeSeparator a.sighashType := by
  have huses : Uses a.prevouts (.all a.prevouts) := by
    rintro l ⟨⟩
    rfl
  exact (realizes_taproot huses _ _ _ _ _ (faithful_new a.tx a.prevouts)).1

/-- What the parts about the inputs commit to. -/
theorem agreesOnInputs_iff (a b : TaprootArgs) : AgreesOnInputs SameU32 a b ↔
    (a.anyoneCanPay = false →
        a.tx.input.map TxIn.previousOutput = b.tx.input.map TxIn.previousOutput ∧
          a.prevouts.map TxOut.value = b.prevouts.map TxOut.value ∧
          a.prevouts.map TxOut.scriptPubkey = b.prevouts.map TxOut.scriptPubkey ∧
          a.tx.input.map TxIn.sequence = b.tx.input.map TxIn.sequence) ∧
      if a.anyoneCanPay then
        a.tx.input[a.inputIndex]?.map TxIn.previousOutput =
            b.tx.input[b.inputIndex]?.map TxIn.previousOutput ∧
          a.prevouts[a.inputIndex]?.map TxOut.value = b.prevouts[b.inputIndex]?.map TxOut.value ∧
          a.prevouts[a.inputIndex]?.map TxOut.scriptPubkey =
            b.prevouts[b.inputIndex]?.map TxOut.scriptPubkey ∧
          a.tx.input[a.inputIndex]?.map TxIn.sequence = b.tx.input[b.inputIndex]?.map TxIn.sequence
      else SameU32 a.inputIndex b.inputIndex := by
  unfold AgreesOnInputs
  cases a.anyoneCanPay with
  | true =>
    simp only [if_true, reduceCtorEq, false_imp_iff, true_and]
    tauto
  | false =>
    simp only [Bool.false_eq_true, if_false, forall_const]
    tauto

theorem commits_ownInput (a b : TaprootArgs) (anyoneCanPay : Bool) :
    Commits (taprootOwnInput a.tx a.inputIndex (.all a.prevouts) anyoneCanPay)
      (taprootOwnInput b.tx b.inputIndex (.all b.prevouts) anyoneCanPay)
      (if anyoneCanPay then
        a.tx.input[a.inputIndex]?.map TxIn.previousOutput =
            b.tx.input[b.inputIndex]?.map TxIn.previousOutput ∧
          a.prevouts[a.inputIndex]?.map TxOut.value = b.prevouts[b.inputIndex]?.map TxOut.value ∧
          a.prevouts[a.inputIndex]?.map TxOut.scriptPubkey =
            b.prevouts[b.inputIndex]?.map TxOut.scriptPubkey ∧
          a.tx.input[a.inputIndex]?.map TxIn.sequence = b.tx.input[b.inputIndex]?.map TxIn.sequence
      else SameU32 a.inputIndex b.inputIndex) := by
  cases anyoneCanPay with
  | true => exact commits_ownInput_one a b
  | false => exact commits_ownInput_all a b

/-- What the parts about the outputs commit to. -/
theorem agreesOnOutputs_iff (a b : TaprootArgs) : AgreesOnOutputs a b ↔
    (a.sighash ≠ .none ∧ a.sighash ≠ .single → a.tx.output = b.tx.output) ∧
      (a.sighash = .single → a.tx.output[a.inputIndex]? = b.tx.output[b.inputIndex]?) := by
  unfold AgreesOnOutputs
  cases a.sighash <;> simp

/-- The message after the control data, where the sighash types are equal. -/
theorem commits_rest (h : NoCollision a b) (htype : a.sighashType = b.sighashType) :
    Commits
      (do
        SigningData.taprootAllInputs a.tx (.all a.prevouts) a.anyoneCanPay
        SigningData.taprootAllOutputs a.tx a.sighash
        .encode (u8.consensusEncode (spendType a.annex a.leafHashCodeSeparator))
        taprootOwnInput a.tx a.inputIndex (.all a.prevouts) a.anyoneCanPay
        taprootAnnex a.annex
        taprootSingleOutput a.tx a.inputIndex a.sighash
        taprootLeaf a.leafHashCodeSeparator)
      (do
        SigningData.taprootAllInputs b.tx (.all b.prevouts) b.anyoneCanPay
        SigningData.taprootAllOutputs b.tx b.sighash
        .encode (u8.consensusEncode (spendType b.annex b.leafHashCodeSeparator))
        taprootOwnInput b.tx b.inputIndex (.all b.prevouts) b.anyoneCanPay
        taprootAnnex b.annex
        taprootSingleOutput b.tx b.inputIndex b.sighash
        taprootLeaf b.leafHashCodeSeparator)
      (a.annex = b.annex ∧ a.leafHashCodeSeparator = b.leafHashCodeSeparator ∧
        AgreesOnInputs SameU32 a b ∧ AgreesOnOutputs a b) := by
  have hflag : b.anyoneCanPay = a.anyoneCanPay := by rw [anyoneCanPay, anyoneCanPay, htype]
  have hsighash : b.sighash = a.sighash := by rw [sighash, sighash, htype]
  have hspend : Commits
      (Emit.encode (u8.consensusEncode (spendType a.annex a.leafHashCodeSeparator)) : Emit TaprootError Unit)
      (.encode (u8.consensusEncode (spendType b.annex b.leafHashCodeSeparator)))
      (a.annex.isSome = b.annex.isSome ∧ a.leafHashCodeSeparator.isSome = b.leafHashCodeSeparator.isSome) :=
    (Commits.encode lawful_u8.finite.roundTrips trivial trivial).congr (spendType_eq_iff _ _ _ _)
  rw [hflag, hsighash]
  refine ((commits_allInputs h _).bind fun _ => (commits_allOutputs h _).bind fun _ => hspend.bind fun hs =>
    (commits_ownInput a b _).bind fun _ => (commits_annex h hs.1).bind fun _ =>
      (commits_singleOutput h _).bind fun _ => commits_leaf hs.2).congr ?_
  rw [agreesOnInputs_iff, agreesOnOutputs_iff]
  constructor
  · rintro ⟨hinputs, houtputs, -, hown, hannex, hsingle, hleaf⟩
    exact ⟨hannex, hleaf, ⟨hinputs, hown⟩, houtputs, hsingle⟩
  · rintro ⟨hannex, hleaf, ⟨hinputs, hown⟩, houtputs, hsingle⟩
    refine ⟨hinputs, houtputs, ⟨?_, ?_⟩, hown, hannex, hsingle, hleaf⟩
    · rw [hannex]
    · rw [hleaf]

theorem commits_encode (h : NoCollision a b) : Commits a.encode b.encode (Agrees SameU32 a b) := by
  rw [encode_eq, encode_eq]
  have hmessage : Commits
      (SigningData.taproot a.tx a.inputIndex (.all a.prevouts) a.annex a.leafHashCodeSeparator a.sighashType)
      (SigningData.taproot b.tx b.inputIndex (.all b.prevouts) b.annex b.leafHashCodeSeparator b.sighashType)
      ((a.sighashType = b.sighashType ∧ a.tx.version = b.tx.version ∧ a.tx.lockTime = b.tx.lockTime) ∧
        a.annex = b.annex ∧ a.leafHashCodeSeparator = b.leafHashCodeSeparator ∧
          AgreesOnInputs SameU32 a b ∧ AgreesOnOutputs a b) :=
    .value fun _ _ _ _ => (commits_control a.tx b.tx _ _).bind fun hcontrol => commits_rest h hcontrol.1
  apply hmessage.congr
  constructor
  · rintro ⟨⟨htype, hversion, hlock⟩, hannex, hleaf, hinputs, houtputs⟩
    exact ⟨htype, hversion, hlock, hannex, hleaf, hinputs, houtputs⟩
  · rintro ⟨htype, hversion, hlock, hannex, hleaf, hinputs, houtputs⟩
    exact ⟨⟨htype, hversion, hlock⟩, hannex, hleaf, hinputs, houtputs⟩

/-- Two taproot messages are equal exactly when the calls agree on what is signed, with the indexes of the
inputs compared as `u32`. -/
theorem encode_eq_iff (a b : TaprootArgs) (h : NoCollision a b) (u v : Bytes) (hu : a.encode = ⟨u, .ok ()⟩)
    (hv : b.encode = ⟨v, .ok ()⟩) : u = v ↔ Agrees SameU32 a b :=
  (commits_encode h).eq_iff hu hv

theorem exists_encode_of_returns (h : a.encode.Returns) : ∃ u, a.encode = ⟨u, .ok ()⟩ := by
  obtain ⟨⟨⟩, h⟩ := h
  exact ⟨a.encode.written, by rw [← h]⟩

/-- A call for the input of `sampleTx`, with another value of the output. -/
def sample (value : UInt64) : TaprootArgs :=
  ⟨{ sampleTx with output := [⟨value, [OP_PUSHNUM_1]⟩] }, [samplePrevout], 0, none, none, .all⟩

theorem addressable_pushnum : Addressable [OP_PUSHNUM_1] := by
  show [OP_PUSHNUM_1].length < 2 ^ 64
  decide

theorem returns_sample (value : UInt64) : (sample value).encode.Returns := by
  rw [encode_eq]
  refine (taproot_of_givesAll ?_ rfl rfl ?_ 0 ?_ none).2 ?_
  · exact List.forall_mem_singleton.2 addressable_pushnum
  · exact List.forall_mem_singleton.2 addressable_pushnum
  · rintro annex ⟨⟩
  · rintro ⟨htype, -⟩
    cases htype

/-- The outputs of the two calls are hashed, as a list and the one at the index. -/
theorem hashOf_ne_sample :
    hashOf ((sample 1000).preimage .outputs) ≠ hashOf ((sample 999).preimage .outputs) ∧
      hashOf ((sample 1000).preimage .output) ≠ hashOf ((sample 999).preimage .output) := by
  decide +kernel

theorem noCollision_sample : NoCollision (sample 1000) (sample 999) := by
  intro p
  cases p with
  | outputs => exact .of_hashOf_ne hashOf_ne_sample.1
  | output => exact .of_hashOf_ne hashOf_ne_sample.2
  | outpoints => exact .refl _
  | amounts => exact .refl _
  | scripts => exact .refl _
  | sequences => exact .refl _
  | annex => exact .refl _

theorem encode_eq_iff_sample : NoCollision (sample 1000) (sample 999) ∧
    ∃ u v, (sample 1000).encode = ⟨u, .ok ()⟩ ∧ (sample 999).encode = ⟨v, .ok ()⟩ ∧
      (u = v ↔ Agrees SameU32 (sample 1000) (sample 999)) ∧ u ≠ v := by
  obtain ⟨u, hu⟩ := exists_encode_of_returns (returns_sample 1000)
  obtain ⟨v, hv⟩ := exists_encode_of_returns (returns_sample 999)
  have hiff := encode_eq_iff (sample 1000) (sample 999) noCollision_sample u v hu hv
  refine ⟨noCollision_sample, u, v, hu, hv, hiff, fun heq => ?_⟩
  have houtput : (sample 1000).tx.output = (sample 999).tx.output := (hiff.1 heq).outputs
  exact absurd houtput (by decide)

/-! ## Indexes beyond `u32` -/

/-- A call for an input of a transaction with `n` equal inputs, where nothing of the outputs is signed. -/
def sampleHuge (n inputIndex : ℕ) : TaprootArgs where
  tx := ⟨2, .blocks 0 zero_lt_threshold, List.replicate n ⟨⟨U8Array.replicate 32 1, 0⟩, [], 0, Witness.new⟩, []⟩
  prevouts := List.replicate n samplePrevout
  inputIndex := inputIndex
  annex := none
  leafHashCodeSeparator := none
  sighashType := .none

/-- The messages for two indexes that are equal as `u32` are the same. -/
theorem encode_sampleHuge (n : ℕ) {i j : ℕ} (h : UInt32.ofNat i = UInt32.ofNat j) :
    (sampleHuge n i).encode = (sampleHuge n j).encode := by
  rw [encode_eq, encode_eq]
  have hown : taprootOwnInput (sampleHuge n i).tx i (.all (sampleHuge n i).prevouts) false =
      taprootOwnInput (sampleHuge n j).tx j (.all (sampleHuge n j).prevouts) false := by
    unfold taprootOwnInput
    rw [h]
    rfl
  unfold SigningData.taproot
  dsimp only [sampleHuge, TapSighashType.splitAnyonecanpayFlag] at hown ⊢
  rw [hown]
  rfl

theorem returns_sampleHuge (n i : ℕ) : (sampleHuge n i).encode.Returns := by
  rw [encode_eq]
  refine (taproot_of_givesAll ?_ rfl ?_ ?_ i ?_ none).2 ?_
  · intro out hout
    cases hout
  · simp [sampleHuge]
  · intro out hout
    rw [List.eq_of_mem_replicate hout]
    exact addressable_pushnum
  · rintro annex ⟨⟩
  · rintro ⟨hsingle, -⟩
    cases hsingle

/-- The first input and the one at `2^32` have the same message, although the indexes differ. -/
theorem not_agrees_sampleHuge :
    0 < (sampleHuge (2 ^ 32 + 1) 0).tx.input.length ∧
      2 ^ 32 < (sampleHuge (2 ^ 32 + 1) (2 ^ 32)).tx.input.length ∧
      NoCollision (sampleHuge (2 ^ 32 + 1) 0) (sampleHuge (2 ^ 32 + 1) (2 ^ 32)) ∧
      ∃ u v, (sampleHuge (2 ^ 32 + 1) 0).encode = ⟨u, .ok ()⟩ ∧
        (sampleHuge (2 ^ 32 + 1) (2 ^ 32)).encode = ⟨v, .ok ()⟩ ∧
        ¬(u = v ↔ Agrees (fun i j => i = j) (sampleHuge (2 ^ 32 + 1) 0) (sampleHuge (2 ^ 32 + 1) (2 ^ 32))) := by
  generalize hn : 2 ^ 32 + 1 = n
  have hsame : (sampleHuge n 0).encode = (sampleHuge n (2 ^ 32)).encode := encode_sampleHuge n (by decide)
  obtain ⟨u, hu⟩ := exists_encode_of_returns (returns_sampleHuge n 0)
  refine ⟨?_, ?_, ?_, u, u, hu, hsame.symm.trans hu, ?_⟩
  · simp only [sampleHuge, List.length_replicate]
    omega
  · simp only [sampleHuge, List.length_replicate]
    omega
  · intro p
    have hpreimage : (sampleHuge n 0).preimage p = (sampleHuge n (2 ^ 32)).preimage p := by
      cases p <;> simp only [preimage, sampleHuge, List.getElem?_nil]
    rw [hpreimage]
    exact .refl _
  · intro hiff
    have hindex : AgreesOnInputs (fun i j => i = j) (sampleHuge n 0) (sampleHuge n (2 ^ 32)) :=
      (hiff.1 rfl).inputs
    have hzero : (0 : ℕ) = 2 ^ 32 := ((if_neg Bool.false_ne_true).mp hindex).1
    exact absurd hzero (by decide)

end TaprootArgs

end RustDogecoin
