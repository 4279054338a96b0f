import RustDogecoin.Crypto.Sighash

/-!
# The sighash cache is transparent

`SigningData` has the messages of taproot and segwit inputs with every hash computed anew.  A cache is
`Faithful` to a transaction and a list of spent outputs when its full cells hold what would be computed from
these; then encoding a message through the cache is encoding it without (`realizes_taproot`,
`realizes_segwitV0`), whatever cells are full.  Every call keeps the cache faithful, also one that fails
halfway, and so does writing a witness.  So the calls of any history return what they return on a new cache
(`run_after`).
-/

namespace RustDogecoin

open Sighash SighashCache Effect

/-! ## Messages without a cache -/

namespace SigningData

variable {ε : Type}

/-- The common hashes of a transaction. -/
def common (tx : Transaction) : Emit ε CommonCache := .ofOutcome (CommonCache.of tx).lift

def segwit (tx : Transaction) : Emit ε SegwitCache := .ofOutcome (SegwitCache.ofCommon <$> (CommonCache.of tx).lift)

def spent (prevouts : List TxOut) : Emit ε TaprootCache := .ofOutcome (TaprootCache.of prevouts).lift

def taprootAllInputs (tx : Transaction) (prevouts : Prevouts) (anyoneCanPay : Bool) : Emit TaprootError Unit :=
  if !anyoneCanPay then do
    .encode ((u8Array 32).consensusEncode (← common tx).prevouts)
    .encode ((u8Array 32).consensusEncode (← spent (← .ofOutcome prevouts.getAll)).amounts)
    .encode ((u8Array 32).consensusEncode (← spent (← .ofOutcome prevouts.getAll)).scriptPubkeys)
    .encode ((u8Array 32).consensusEncode (← common tx).sequences)
  else pure ()

def taprootAllOutputs (tx : Transaction) (sighash : TapSighashType) : Emit TaprootError Unit :=
  if sighash ≠ .none ∧ sighash ≠ .single then do
    .encode ((u8Array 32).consensusEncode (← common tx).outputs)
  else pure ()

/-- The message that a taproot signature commits to. -/
def taproot (tx : Transaction) (inputIndex : ℕ) (prevouts : Prevouts) (annex : Option Annex)
    (leafHashCodeSeparator : Option (TapLeafHash × UInt32)) (sighashType : TapSighashType) :
    Emit TaprootError Unit := do
  .ofOutcome (prevouts.checkAll tx)
  let (sighash, anyoneCanPay) := sighashType.splitAnyonecanpayFlag
  taprootControl tx sighashType
  taprootAllInputs tx prevouts anyoneCanPay
  taprootAllOutputs tx sighash
  .encode (u8.consensusEncode (spendType annex leafHashCodeSeparator))
  taprootOwnInput tx inputIndex prevouts anyoneCanPay
  taprootAnnex annex
  taprootSingleOutput tx inputIndex sighash
  taprootLeaf leafHashCodeSeparator

def segwitField (tx : Transaction) (c : Prop) [Decidable c] (field : SegwitCache → Hash) :
    Emit InputsIndexError Unit :=
  if c then do
    .encode ((u8Array 32).consensusEncode (field (← segwit tx)))
  else .encode ((u8Array 32).consensusEncode zeroHash)

def segwitOutputs (tx : Transaction) (inputIndex : ℕ) (sighash : EcdsaSighashType) :
    Emit InputsIndexError Unit :=
  if sighash ≠ .single ∧ sighash ≠ .none then do
    .encode ((u8Array 32).consensusEncode (← segwit tx).outputs)
  else segwitSingleOutput tx inputIndex sighash

/-- The message that a segwit signature commits to. -/
def segwitV0 (tx : Transaction) (inputIndex : ℕ) (scriptCode : ScriptBuf) (value : UInt64)
    (sighashType : EcdsaSighashType) : Emit InputsIndexError Unit := do
  let (sighash, anyoneCanPay) := sighashType.splitAnyonecanpayFlag
  .encode (i32.consensusEncode tx.version)
  segwitField tx (!anyoneCanPay) SegwitCache.prevouts
  segwitField tx (!anyoneCanPay ∧ sighash ≠ .single ∧ sighash ≠ .none) SegwitCache.sequences
  segwitOwnInput tx inputIndex scriptCode value
  segwitOutputs tx inputIndex sighash
  .encode (LockTime.codec.consensusEncode tx.lockTime)
  .encode (u32.consensusEncode sighashType.toU32)

end SigningData

/-! ## Faithful caches -/

namespace SighashCache

variable {ε : Type} {tx : Transaction} {list : List TxOut}

/-- The full cells hold what is computed from the transaction and the spent outputs. -/
structure Faithful (tx : Transaction) (list : List TxOut) (s : SighashCache) : Prop where
  tx_eq : s.tx = tx
  common : ∀ c, s.commonCell = some c → CommonCache.of tx = .ok c
  segwit : ∀ c, s.segwitCell = some c → SegwitCache.ofCommon <$> CommonCache.of tx = .ok c
  taproot : ∀ c, s.taprootCell = some c → TaprootCache.of list = .ok c

theorem faithful_new (tx : Transaction) (list : List TxOut) : (new tx).Faithful tx list where
  tx_eq := rfl
  common _ h := by cases h
  segwit _ h := by cases h
  taproot _ h := by cases h

theorem realizes_tx : Realizes (Faithful tx list) (Effect.read SighashCache.tx : Effect _ ε _) (pure tx) :=
  .read fun _ hs => hs.tx_eq

theorem realizes_commonCache :
    Realizes (Faithful tx list) (commonCache : Effect _ ε _) (SigningData.common tx) := by
  refine .memo ?_ ?_ ?_
  · have h : Realizes (Faithful tx list)
        (Effect.read SighashCache.tx >>= fun t => Effect.ofOutcome (CommonCache.of t).lift : Effect _ ε _)
        (pure tx >>= fun t => Emit.ofOutcome (CommonCache.of t).lift) :=
      realizes_tx.bind fun t _ => .ofOutcome _
    exact h
  · intro s c hs hcell
    exact Outcome.lift_eq_ok_iff.2 (hs.common c hcell)
  · intro s c hs hc
    have hcell : ∀ c', some c = some c' → CommonCache.of tx = .ok c' := by
      rintro c' ⟨⟩
      exact Outcome.lift_eq_ok_iff.1 hc
    exact { hs with common := hcell }

theorem realizes_segwitCache :
    Realizes (Faithful tx list) (segwitCache : Effect _ ε _) (SigningData.segwit tx) := by
  refine .memo ?_ ?_ ?_
  · have h : Realizes (Faithful tx list)
        (commonCache >>= fun c => pure (SegwitCache.ofCommon c) : Effect _ ε _)
        (SigningData.common tx >>= fun c => pure (SegwitCache.ofCommon c)) :=
      realizes_commonCache.bind fun c _ => .pure _
    have heq : (SigningData.common tx >>= fun c => pure (SegwitCache.ofCommon c) : Emit ε _) =
        .ofOutcome (SegwitCache.ofCommon <$> (CommonCache.of tx).lift) := by
      unfold SigningData.common
      cases (CommonCache.of tx).lift (ε := ε) <;> rfl
    rwa [heq] at h
  · intro s c hs hcell
    obtain ⟨common, hcommon, rfl⟩ := Outcome.map_eq_ok_iff.1 (hs.segwit c hcell)
    rw [hcommon]
    rfl
  · intro s c hs hc
    obtain ⟨common, hcommon, rfl⟩ := Outcome.map_eq_ok_iff.1 hc
    have hcell : ∀ c', some (SegwitCache.ofCommon common) = some c' →
        SegwitCache.ofCommon <$> CommonCache.of tx = .ok c' := by
      rintro c' ⟨⟩
      rw [Outcome.lift_eq_ok_iff.1 hcommon]
      rfl
    exact { hs with segwit := hcell }

theorem realizes_taprootCache :
    Realizes (Faithful tx list) (taprootCache list : Effect _ ε _) (SigningData.spent list) := by
  refine .memo (.ofOutcome _) ?_ ?_
  · intro s c hs hcell
    exact Outcome.lift_eq_ok_iff.2 (hs.taproot c hcell)
  · intro s c hs hc
    have hcell : ∀ c', some c = some c' → TaprootCache.of list = .ok c' := by
      rintro c' ⟨⟩
      exact Outcome.lift_eq_ok_iff.1 hc
    exact { hs with taproot := hcell }

/-! ## Encoding through a faithful cache -/

/-- Where all spent outputs are given, they are the ones of the list. -/
def Uses (list : List TxOut) (prevouts : Prevouts) : Prop := ∀ l, prevouts = .all l → l = list

theorem eq_of_getAll {prevouts : Prevouts} (h : Uses list prevouts) {l : List TxOut}
    (hget : prevouts.getAll = .ok l) : l = list := by
  cases prevouts with
  | one index prevout => cases hget
  | all l' =>
    cases hget
    exact h l rfl

theorem realizes_taprootAllInputs {prevouts : Prevouts} (h : Uses list prevouts) (anyoneCanPay : Bool) :
    Realizes (Faithful tx list) (taprootAllInputs prevouts anyoneCanPay)
      (SigningData.taprootAllInputs tx prevouts anyoneCanPay) := by
  refine .ite (fun _ => ?_) fun _ => .pure ()
  have hspent : ∀ l, prevouts.getAll = .ok l →
      Realizes (Faithful tx list) (taprootCache l : Effect _ TaprootError _) (SigningData.spent l) := by
    intro l hl
    rw [eq_of_getAll h hl]
    exact realizes_taprootCache
  refine realizes_commonCache.bind fun c _ => (Realizes.encode _).bind fun _ _ => ?_
  refine (Realizes.ofOutcome _).bind fun l hl => (hspent l hl).bind fun c _ => ?_
  refine (Realizes.encode _).bind fun _ _ => ?_
  refine (Realizes.ofOutcome _).bind fun l hl => (hspent l hl).bind fun c _ => ?_
  refine (Realizes.encode _).bind fun _ _ => ?_
  exact realizes_commonCache.bind fun c _ => .encode _

theorem realizes_taprootAllOutputs (sighash : TapSighashType) :
    Realizes (Faithful tx list) (taprootAllOutputs sighash) (SigningData.taprootAllOutputs tx sighash) := by
  refine .ite (fun _ => ?_) fun _ => .pure ()
  exact realizes_commonCache.bind fun c _ => .encode _

/-- A taproot message through a faithful cache. -/
theorem realizes_taproot {prevouts : Prevouts} (h : Uses list prevouts) (inputIndex : ℕ)
    (annex : Option Annex) (leafHashCodeSeparator : Option (TapLeafHash × UInt32))
    (sighashType : TapSighashType) :
    Realizes (Faithful tx list)
      (taprootEncodeSigningDataTo inputIndex prevouts annex leafHashCodeSeparator sighashType)
      (SigningData.taproot tx inputIndex prevouts annex leafHashCodeSeparator sighashType) := by
  have hbody : Realizes (Faithful tx list)
      (taprootEncodeSigningDataTo inputIndex prevouts annex leafHashCodeSeparator sighashType)
      (pure tx >>= fun tx =>
        SigningData.taproot tx inputIndex prevouts annex leafHashCodeSeparator sighashType) := by
    apply realizes_tx.bind
    intro t ht
    cases ht
    refine (Realizes.ofOutcome _).bind fun _ _ => (Realizes.emit _).bind fun _ _ => ?_
    refine (realizes_taprootAllInputs h _).bind fun _ _ => (realizes_taprootAllOutputs _).bind fun _ _ => ?_
    refine (Realizes.encode _).bind fun _ _ => (Realizes.emit _).bind fun _ _ => ?_
    exact (Realizes.emit _).bind fun _ _ => (Realizes.emit _).bind fun _ _ => .emit _
  exact hbody

theorem realizes_segwitField (c : Prop) [Decidable c] (field : SegwitCache → Hash) :
    Realizes (Faithful tx list) (segwitField c field) (SigningData.segwitField tx c field) :=
  .ite (fun _ => realizes_segwitCache.bind fun _ _ => .encode _) fun _ => .encode _

/-- A segwit message through a faithful cache. -/
theorem realizes_segwitV0 (inputIndex : ℕ) (scriptCode : ScriptBuf) (value : UInt64)
    (sighashType : EcdsaSighashType) :
    Realizes (Faithful tx list) (segwitV0EncodeSigningDataTo inputIndex scriptCode value sighashType)
      (SigningData.segwitV0 tx inputIndex scriptCode value sighashType) := by
  have hbody : Realizes (Faithful tx list)
      (segwitV0EncodeSigningDataTo inputIndex scriptCode value sighashType)
      (pure tx >>= fun tx => SigningData.segwitV0 tx inputIndex scriptCode value sighashType) := by
    apply realizes_tx.bind
    intro t ht
    cases ht
    refine (Realizes.encode _).bind fun _ _ => (realizes_segwitField _ _).bind fun _ _ => ?_
    refine (realizes_segwitField _ _).bind fun _ _ => (Realizes.emit _).bind fun _ _ => ?_
    have houtputs : Realizes (Faithful tx list) (segwitOutputs tx inputIndex sighashType.splitAnyonecanpayFlag.1)
        (SigningData.segwitOutputs tx inputIndex sighashType.splitAnyonecanpayFlag.1) :=
      .ite (fun _ => realizes_segwitCache.bind fun _ _ => .encode _) fun _ => .emit _
    refine houtputs.bind fun _ _ => ?_
    exact (Realizes.encode _).bind fun _ _ => .encode _
  exact hbody

/-! ## Calls -/

/-- The calls that compute a signature hash. -/
inductive Call where
  | legacy (inputIndex : ℕ) (scriptPubkey : ScriptBuf) (sighashType : UInt32)
  | p2wpkh (inputIndex : ℕ) (scriptPubkey : ScriptBuf) (value : UInt64) (sighashType : EcdsaSighashType)
  | p2wsh (inputIndex : ℕ) (witnessScript : ScriptBuf) (value : UInt64) (sighashType : EcdsaSighashType)
  | taproot (inputIndex : ℕ) (prevouts : Prevouts) (annex : Option Annex)
      (leafHashCodeSeparator : Option (TapLeafHash × UInt32)) (sighashType : TapSighashType)
  | taprootKeySpend (inputIndex : ℕ) (prevouts : Prevouts) (sighashType : TapSighashType)
  | taprootScriptSpend (inputIndex : ℕ) (prevouts : Prevouts) (leafHash : TapLeafHash)
      (sighashType : TapSighashType)

/-- The errors of the calls. -/
inductive CallError where
  | inputsIndex (e : InputsIndexError)
  | p2wpkh (e : P2wpkhError)
  | taproot (e : TaprootError)
  deriving DecidableEq, Repr

namespace Call

/-- The call on a cache. -/
def run : Call → Effect SighashCache CallError Hash
  | legacy inputIndex scriptPubkey sighashType => fun s =>
    (.ofOutcome ((s.legacySignatureHash inputIndex scriptPubkey sighashType).mapErr .inputsIndex), s)
  | p2wpkh inputIndex scriptPubkey value sighashType =>
    (p2wpkhSignatureHash inputIndex scriptPubkey value sighashType).mapErr .p2wpkh
  | p2wsh inputIndex witnessScript value sighashType =>
    (p2wshSignatureHash inputIndex witnessScript value sighashType).mapErr .inputsIndex
  | taproot inputIndex prevouts annex leafHashCodeSeparator sighashType =>
    (taprootSignatureHash inputIndex prevouts annex leafHashCodeSeparator sighashType).mapErr .taproot
  | taprootKeySpend inputIndex prevouts sighashType =>
    (taprootKeySpendSignatureHash inputIndex prevouts sighashType).mapErr .taproot
  | taprootScriptSpend inputIndex prevouts leafHash sighashType =>
    (taprootScriptSpendSignatureHash inputIndex prevouts leafHash sighashType).mapErr .taproot

/-- Where the call is given all spent outputs, they are the ones of the list. -/
def Uses (list : List TxOut) : Call → Prop
  | legacy _ _ _ | p2wpkh _ _ _ _ | p2wsh _ _ _ _ => True
  | taproot _ prevouts _ _ _ | taprootKeySpend _ prevouts _ | taprootScriptSpend _ prevouts _ _ =>
    SighashCache.Uses list prevouts

/-- The hash of a message, unless there is none. -/
def hashed {ε : Type} (hash : Bytes → Hash) (m : Emit ε Unit) : Emit ε Hash :=
  .ofOutcome m.collect >>= fun message => pure (hash message)

/-- What the call returns without a cache. -/
def expected (tx : Transaction) : Call → Emit CallError Hash
  | legacy inputIndex scriptPubkey sighashType =>
    .ofOutcome (((new tx).legacySignatureHash inputIndex scriptPubkey sighashType).mapErr .inputsIndex)
  | p2wpkh inputIndex scriptPubkey value sighashType =>
    (Emit.ofOutcome (Script.p2wpkhScriptCode scriptPubkey).lift >>= fun code =>
      match code with
      | some scriptCode =>
        hashed Sha256d.hash ((SigningData.segwitV0 tx inputIndex scriptCode value sighashType).mapErr .sighash)
      | none => .ofOutcome (.err .notP2wpkhScript)).mapErr .p2wpkh
  | p2wsh inputIndex witnessScript value sighashType =>
    (hashed Sha256d.hash (SigningData.segwitV0 tx inputIndex witnessScript value sighashType)).mapErr .inputsIndex
  | taproot inputIndex prevouts annex leafHashCodeSeparator sighashType =>
    (hashed tapSighash
      (SigningData.taproot tx inputIndex prevouts annex leafHashCodeSeparator sighashType)).mapErr .taproot
  | taprootKeySpend inputIndex prevouts sighashType =>
    (hashed tapSighash (SigningData.taproot tx inputIndex prevouts none none sighashType)).mapErr .taproot
  | taprootScriptSpend inputIndex prevouts leafHash sighashType =>
    (hashed tapSighash (SigningData.taproot tx inputIndex prevouts none (some (leafHash, 0xFFFFFFFF))
      sighashType)).mapErr .taproot

theorem realizes_hashed {m : Effect SighashCache ε Unit} {t : Emit ε Unit} (hash : Bytes → Hash)
    (h : Realizes (Faithful tx list) m t) :
    Realizes (Faithful tx list) (m.collect >>= fun message => pure (hash message)) (hashed hash t) :=
  h.collect.bind fun _ _ => .pure _

/-- A call on a faithful cache returns what it returns without, and leaves the cache faithful. -/
theorem realizes_run {c : Call} (h : c.Uses list) : Realizes (Faithful tx list) c.run (c.expected tx) := by
  cases c with
  | legacy inputIndex scriptPubkey sighashType =>
    intro s hs
    obtain rfl := hs.tx_eq
    exact ⟨rfl, hs⟩
  | p2wpkh inputIndex scriptPubkey value sighashType =>
    refine Realizes.mapErr ((Realizes.ofOutcome _).bind fun code _ => ?_) _
    cases code with
    | none => exact .ofOutcome _
    | some scriptCode => exact realizes_hashed _ ((realizes_segwitV0 _ _ _ _).mapErr _)
  | p2wsh inputIndex witnessScript value sighashType =>
    exact (realizes_hashed _ (realizes_segwitV0 _ _ _ _)).mapErr _
  | taproot inputIndex prevouts annex leafHashCodeSeparator sighashType =>
    exact (realizes_hashed _ (realizes_taproot h _ _ _ _)).mapErr _
  | taprootKeySpend inputIndex prevouts sighashType =>
    exact (realizes_hashed _ (realizes_taproot h _ _ _ _)).mapErr _
  | taprootScriptSpend inputIndex prevouts leafHash sighashType =>
    exact (realizes_hashed _ (realizes_taproot h _ _ _ _)).mapErr _

end Call

/-! ## Witnesses -/

/-- The transaction without its witnesses. -/
def stripped (tx : Transaction) : Transaction := { tx with input := tx.input.map Transaction.strip }

theorem txIn_stripped (tx : Transaction) (inputIndex : ℕ) :
    txIn (stripped tx) inputIndex = Transaction.strip <$> txIn tx inputIndex := by
  unfold txIn stripped
  rw [List.getElem?_map, List.length_map]
  cases tx.input[inputIndex]? <;> rfl

theorem commonCache_stripped (tx : Transaction) : CommonCache.of (stripped tx) = CommonCache.of tx := by
  simp only [CommonCache.of, stripped, List.map_map]
  rfl

theorem taprootOwnInput_stripped (tx : Transaction) (inputIndex : ℕ) (prevouts : Prevouts)
    (anyoneCanPay : Bool) :
    taprootOwnInput (stripped tx) inputIndex prevouts anyoneCanPay =
      taprootOwnInput tx inputIndex prevouts anyoneCanPay := by
  unfold taprootOwnInput
  rw [txIn_stripped]
  cases txIn tx inputIndex <;> rfl

theorem segwitOwnInput_stripped (tx : Transaction) (inputIndex : ℕ) (scriptCode : ScriptBuf) (value : UInt64) :
    segwitOwnInput (stripped tx) inputIndex scriptCode value =
      segwitOwnInput tx inputIndex scriptCode value := by
  unfold segwitOwnInput
  rw [txIn_stripped]
  cases txIn tx inputIndex <;> rfl

theorem legacyInputs_stripped (tx : Transaction) (inputIndex : ℕ) (scriptPubkey : ScriptBuf)
    (sighash : EcdsaSighashType) (anyoneCanPay : Bool) :
    legacyInputs (stripped tx) inputIndex scriptPubkey sighash anyoneCanPay =
      legacyInputs tx inputIndex scriptPubkey sighash anyoneCanPay := by
  unfold legacyInputs stripped
  dsimp only
  rw [List.getElem?_map, List.mapIdx_eq_zipIdx_map, List.mapIdx_eq_zipIdx_map, List.zipIdx_map, List.map_map]
  cases tx.input[inputIndex]? <;> rfl

theorem legacySignatureHash_stripped (tx : Transaction) (inputIndex : ℕ) (scriptPubkey : ScriptBuf)
    (sighashType : UInt32) :
    (new (stripped tx)).legacySignatureHash inputIndex scriptPubkey sighashType =
      (new tx).legacySignatureHash inputIndex scriptPubkey sighashType := by
  have hinner : encodeSigningDataToInner (stripped tx) inputIndex scriptPubkey sighashType =
      encodeSigningDataToInner tx inputIndex scriptPubkey sighashType := by
    unfold encodeSigningDataToInner
    simp only [legacyInputs_stripped]
    rfl
  unfold legacySignatureHash legacyEncodeSigningDataTo
  simp only [new, txIn_stripped, hinner]
  cases txIn tx inputIndex <;> rfl

theorem checkAll_stripped (tx : Transaction) (prevouts : Prevouts) :
    prevouts.checkAll (stripped tx) = prevouts.checkAll tx := by
  cases prevouts with
  | one index prevout => rfl
  | all l => simp [Prevouts.checkAll, stripped]

theorem taproot_stripped (tx : Transaction) (inputIndex : ℕ) (prevouts : Prevouts) (annex : Option Annex)
    (leafHashCodeSeparator : Option (TapLeafHash × UInt32)) (sighashType : TapSighashType) :
    SigningData.taproot (stripped tx) inputIndex prevouts annex leafHashCodeSeparator sighashType =
      SigningData.taproot tx inputIndex prevouts annex leafHashCodeSeparator sighashType := by
  unfold SigningData.taproot SigningData.taprootAllInputs SigningData.taprootAllOutputs SigningData.common
  simp only [checkAll_stripped, commonCache_stripped, taprootOwnInput_stripped]
  rfl

theorem segwitV0_stripped (tx : Transaction) (inputIndex : ℕ) (scriptCode : ScriptBuf) (value : UInt64)
    (sighashType : EcdsaSighashType) :
    SigningData.segwitV0 (stripped tx) inputIndex scriptCode value sighashType =
      SigningData.segwitV0 tx inputIndex scriptCode value sighashType := by
  unfold SigningData.segwitV0 SigningData.segwitField SigningData.segwitOutputs SigningData.segwit
  simp only [commonCache_stripped, segwitOwnInput_stripped]
  rfl

/-- No signature hash depends on witnesses. -/
theorem Call.expected_stripped (tx : Transaction) (c : Call) : c.expected (stripped tx) = c.expected tx := by
  cases c with
  | legacy inputIndex scriptPubkey sighashType =>
    simp only [expected, legacySignatureHash_stripped]
  | p2wpkh inputIndex scriptPubkey value sighashType =>
    simp only [expected, segwitV0_stripped]
  | p2wsh inputIndex witnessScript value sighashType =>
    simp only [expected, segwitV0_stripped]
  | taproot inputIndex prevouts annex leafHashCodeSeparator sighashType =>
    simp only [expected, taproot_stripped]
  | taprootKeySpend inputIndex prevouts sighashType =>
    simp only [expected, taproot_stripped]
  | taprootScriptSpend inputIndex prevouts leafHash sighashType =>
    simp only [expected, taproot_stripped]

theorem stripped_witnessMut (inputIndex : ℕ) (f : Witness → Witness) (s : SighashCache) :
    stripped (s.witnessMut inputIndex f).tx = stripped s.tx := by
  unfold stripped witnessMut
  dsimp only
  congr 1
  apply List.ext_getElem?
  intro i
  simp only [List.getElem?_map, List.getElem?_modify]
  split_ifs <;> cases s.tx.input[i]? <;> rfl

/-! ## Histories -/

/-- What happens to a cache: a call, or a change of a witness. -/
inductive Step where
  | call (c : Call)
  | witness (inputIndex : ℕ) (f : Witness → Witness)

def Step.apply : Step → SighashCache → SighashCache
  | call c, s => (c.run s).2
  | witness inputIndex f, s => s.witnessMut inputIndex f

/-- The cache after a history. -/
def after : List Step → SighashCache → SighashCache
  | [], s => s
  | step :: steps, s => after steps (step.apply s)

/-- The cache is faithful to its transaction, which differs from the given one only in witnesses. -/
def Sound (tx : Transaction) (list : List TxOut) (s : SighashCache) : Prop :=
  s.Faithful s.tx list ∧ stripped s.tx = stripped tx

theorem sound_apply {step : Step} (h : ∀ c, step = .call c → c.Uses list) {s : SighashCache}
    (hs : Sound tx list s) : Sound tx list (step.apply s) := by
  cases step with
  | call c =>
    have hnext := (c.realizes_run (h c rfl) s hs.1).2
    have htx : (c.run s).2.tx = s.tx := hnext.tx_eq
    refine ⟨?_, ?_⟩
    · show Faithful (c.run s).2.tx list (c.run s).2
      rwa [htx]
    · show stripped (c.run s).2.tx = stripped tx
      rw [htx, hs.2]
  | witness inputIndex f =>
    have hsame := stripped_witnessMut inputIndex f s
    have hcommon : CommonCache.of (s.witnessMut inputIndex f).tx = CommonCache.of s.tx := by
      rw [← commonCache_stripped, hsame, commonCache_stripped]
    refine ⟨?_, hsame.trans hs.2⟩
    exact {
      tx_eq := rfl
      common := fun c hc => hcommon.trans (hs.1.common c hc)
      segwit := fun c hc => (congrArg (SegwitCache.ofCommon <$> ·) hcommon).trans (hs.1.segwit c hc)
      taproot := hs.1.taproot }

theorem sound_after {steps : List Step} (h : ∀ c, Step.call c ∈ steps → c.Uses list) {s : SighashCache}
    (hs : Sound tx list s) : Sound tx list (after steps s) := by
  induction steps generalizing s with
  | nil => exact hs
  | cons step steps ih =>
    apply ih
    · intro c hc
      exact h c (List.mem_cons_of_mem _ hc)
    · apply sound_apply _ hs
      rintro c rfl
      exact h c List.mem_cons_self

/-- After every history of calls and changed witnesses, with the same spent outputs wherever all of them are
given, a call returns what it returns on a new cache, of the transaction as it is now and as it was. -/
theorem run_after (tx : Transaction) (list : List TxOut) (steps : List Step) (c : Call)
    (hsteps : ∀ c, Step.call c ∈ steps → c.Uses list) (hc : c.Uses list) :
    (c.run (after steps (new tx))).1 = (c.run (new (after steps (new tx)).tx)).1 ∧
      (c.run (after steps (new tx))).1 = (c.run (new tx)).1 := by
  have hsound : Sound tx list (after steps (new tx)) := sound_after hsteps ⟨faithful_new tx list, rfl⟩
  have hrun := (c.realizes_run hc _ hsound.1).1
  refine ⟨?_, ?_⟩
  · rw [hrun, (c.realizes_run hc _ (faithful_new _ list)).1]
  · rw [hrun, (c.realizes_run hc _ (faithful_new tx list)).1, ← c.expected_stripped, hsound.2,
      c.expected_stripped]

/-- A transaction with one input and one output. -/
def sampleTx : Transaction :=
  ⟨2, .blocks 0 zero_lt_threshold, [⟨⟨U8Array.replicate 32 1, 0⟩, [], 0, Witness.new⟩], [⟨1000, [OP_PUSHNUM_1]⟩]⟩

/-- The output it spends. -/
def samplePrevout : TxOut := ⟨2000, [OP_PUSHNUM_1]⟩

/-- A failed call that leaves the common hashes behind, a segwit call, and a cleared witness. -/
def sampleSteps : List Step := [
  .call (.taprootKeySpend 0 (.one 0 samplePrevout) .all),
  .call (.p2wsh 0 [OP_CHECKSIG] 2000 .all),
  .witness 0 fun _ => Witness.new]

theorem run_after_sample :
    (∀ c, Step.call c ∈ sampleSteps → c.Uses [samplePrevout]) ∧
      ((Call.taprootKeySpend 0 (.all [samplePrevout]) .default).run (after sampleSteps (new sampleTx))).1 =
        ((Call.taprootKeySpend 0 (.all [samplePrevout]) .default).run (new sampleTx)).1 := by
  have hsteps : ∀ c, Step.call c ∈ sampleSteps → c.Uses [samplePrevout] := by
    intro c hc
    simp only [sampleSteps, List.mem_cons, List.not_mem_nil, or_false, Step.call.injEq, reduceCtorEq] at hc
    rcases hc with rfl | rfl
    · intro l hl
      cases hl
    · trivial
  have hc : (Call.taprootKeySpend 0 (.all [samplePrevout]) .default).Uses [samplePrevout] := by
    intro l hl
    cases hl
    rfl
  exact ⟨hsteps, (run_after sampleTx [samplePrevout] sampleSteps _ hsteps hc).2⟩

end SighashCache

end RustDogecoin
