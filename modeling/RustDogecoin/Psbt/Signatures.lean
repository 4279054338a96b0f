import RustDogecoin.Psbt.SignPanics

/-!
# The signatures of a signer

An input map is a set of signatures, with at most one for each slot, and a map without any.  `made` is the set
of the signatures that a signer makes for an input: it is read off the keys that are found and the messages of
a new cache.  It does not depend on the signatures that are there already (`made_congr`).
-/

namespace RustDogecoin

open Sighash SighashCache Effect

namespace Psbt

variable {S : KeyFormats} {p q : Psbt S} {i : ℕ}

/-! ## Sets of signatures -/

variable (S) in
/-- Where an input map keeps a signature. -/
inductive Slot where
  | partialSig (key : PublicKey S)
  | tapKeySig
  | tapScriptSig (key : S.XOnlyPublicKey ×ₗ TapLeafHash)

variable (S) in
/-- A signature of an input map, with its place. -/
inductive Sig where
  | partialSig (key : PublicKey S) (sig : Ecdsa.Signature S)
  | tapKeySig (sig : Taproot.Signature S)
  | tapScriptSig (key : S.XOnlyPublicKey ×ₗ TapLeafHash) (sig : Taproot.Signature S)

def Sig.slot : Sig S → Slot S
  | partialSig key _ => .partialSig key
  | tapKeySig _ => .tapKeySig
  | tapScriptSig key _ => .tapScriptSig key

namespace Input

variable {m m' : Input S}

/-- The signatures of an input map. -/
def sigs (m : Input S) : Set (Sig S)
  | .partialSig key sig => m.partialSigs[key]? = some sig
  | .tapKeySig sig => m.tapKeySig = some sig
  | .tapScriptSig key sig => m.tapScriptSigs[key]? = some sig

theorem ext_sigs (hunsigned : m.unsigned = m'.unsigned) (hsigs : m.sigs = m'.sigs) : m = m' := by
  apply ext_get
  intro k
  have hk := congrArg (fun m => m.get k) hunsigned
  cases k with
  | partialSig key => exact Option.ext fun sig => Set.ext_iff.1 hsigs (.partialSig key sig)
  | tapKeySig => exact Option.ext fun sig => Set.ext_iff.1 hsigs (.tapKeySig sig)
  | tapScriptSig key => exact Option.ext fun sig => Set.ext_iff.1 hsigs (.tapScriptSig key sig)
  | _ => exact hk

/-- A map that differs from another at one slot. -/
theorem sigs_eq_insert {s : Sig S} (hset : ∀ x, x ∈ m'.sigs ↔ x = s ∨ x.slot ≠ s.slot ∧ x ∈ m.sigs)
    (h : (insert s m.sigs).InjOn Sig.slot) : m'.sigs = insert s m.sigs := by
  ext x
  rw [hset, Set.mem_insert_iff]
  refine or_congr_right' fun hne => ⟨And.right, fun hx => ⟨fun hslot => ?_, hx⟩⟩
  exact hne (h (Or.inr hx) (Or.inl rfl) hslot)

theorem sigs_insertPartialSig {key : PublicKey S} {sig : Ecdsa.Signature S}
    (h : (insert (.partialSig key sig) m.sigs).InjOn Sig.slot) :
    sigs { m with partialSigs := m.partialSigs.insert key sig } = insert (.partialSig key sig) m.sigs := by
  refine sigs_eq_insert (fun x => ?_) h
  cases x with
  | partialSig key' sig' =>
    show (m.partialSigs.insert key sig)[key']? = some sig' ↔
      Sig.partialSig key' sig' = .partialSig key sig ∨
        Slot.partialSig key' ≠ .partialSig key ∧ m.partialSigs[key']? = some sig'
    rw [BTreeMap.getElem?_insert]
    split_ifs with hkey
    · simp [hkey, eq_comm]
    · simp [Ne.symm hkey]
  | tapKeySig sig' => exact ⟨fun hx => Or.inr ⟨nofun, hx⟩, fun hx => (hx.resolve_left nofun).2⟩
  | tapScriptSig key' sig' => exact ⟨fun hx => Or.inr ⟨nofun, hx⟩, fun hx => (hx.resolve_left nofun).2⟩

theorem sigs_setTapKeySig {sig : Taproot.Signature S} (h : (insert (.tapKeySig sig) m.sigs).InjOn Sig.slot) :
    sigs { m with tapKeySig := some sig } = insert (.tapKeySig sig) m.sigs := by
  refine sigs_eq_insert (fun x => ?_) h
  cases x with
  | partialSig key' sig' => exact ⟨fun hx => Or.inr ⟨nofun, hx⟩, fun hx => (hx.resolve_left nofun).2⟩
  | tapKeySig sig' =>
    show some sig = some sig' ↔
      Sig.tapKeySig sig' = .tapKeySig sig ∨ Slot.tapKeySig ≠ (.tapKeySig : Slot S) ∧ m.tapKeySig = some sig'
    simp [eq_comm]
  | tapScriptSig key' sig' => exact ⟨fun hx => Or.inr ⟨nofun, hx⟩, fun hx => (hx.resolve_left nofun).2⟩

theorem sigs_insertTapScriptSig {key : S.XOnlyPublicKey ×ₗ TapLeafHash} {sig : Taproot.Signature S}
    (h : (insert (.tapScriptSig key sig) m.sigs).InjOn Sig.slot) :
    sigs { m with tapScriptSigs := m.tapScriptSigs.insert key sig } = insert (.tapScriptSig key sig) m.sigs := by
  refine sigs_eq_insert (fun x => ?_) h
  cases x with
  | partialSig key' sig' => exact ⟨fun hx => Or.inr ⟨nofun, hx⟩, fun hx => (hx.resolve_left nofun).2⟩
  | tapKeySig sig' => exact ⟨fun hx => Or.inr ⟨nofun, hx⟩, fun hx => (hx.resolve_left nofun).2⟩
  | tapScriptSig key' sig' =>
    show (m.tapScriptSigs.insert key sig)[key']? = some sig' ↔
      Sig.tapScriptSig key' sig' = .tapScriptSig key sig ∨
        Slot.tapScriptSig key' ≠ .tapScriptSig key ∧ m.tapScriptSigs[key']? = some sig'
    rw [BTreeMap.getElem?_insert]
    split_ifs with hkey
    · simp [hkey, eq_comm]
    · simp [Ne.symm hkey]

/-- Signatures have been added to the map, and nothing else has changed. -/
structure Adds (m : Input S) (M : Set (Sig S)) (m' : Input S) : Prop where
  unsigned : m'.unsigned = m.unsigned
  sigs : m'.sigs = m.sigs ∪ M

theorem Adds.of_subset {M : Set (Sig S)} (h : M ⊆ m.sigs) : m.Adds M m := ⟨rfl, (Set.union_eq_left.2 h).symm⟩

theorem Adds.trans {m'' : Input S} {M M' : Set (Sig S)} (h : m.Adds M m') (h' : m'.Adds M' m'') :
    m.Adds (M ∪ M') m'' :=
  ⟨h'.unsigned.trans h.unsigned, by rw [h'.sigs, h.sigs, Set.union_assoc]⟩

/-- In a loop that adds the signatures of each item: those that are left make up the whole. -/
structure Progress {α : Type} (m : Input S) (M : Set (Sig S)) (f : α → Set (Sig S)) (l : List α)
    (m' : Input S) : Prop where
  unsigned : m'.unsigned = m.unsigned
  sigs : m'.sigs ∪ {s | ∃ a ∈ l, s ∈ f a} = m.sigs ∪ M

variable {α : Type} {M : Set (Sig S)} {f : α → Set (Sig S)} {a : α} {l : List α}

theorem progress_start (m : Input S) (f : α → Set (Sig S)) (l : List α) :
    Progress m {s | ∃ a ∈ l, s ∈ f a} f l m := ⟨rfl, rfl⟩

theorem Progress.subset (h : Progress m M f (a :: l) m') : m'.sigs ∪ f a ⊆ m.sigs ∪ M := by
  rw [← h.sigs]
  exact Set.union_subset_union_right _ fun s hs => ⟨a, List.mem_cons_self, hs⟩

theorem Progress.next {m'' : Input S} (h : Progress m M f (a :: l) m') (h' : m'.Adds (f a) m'') :
    Progress m M f l m'' := by
  refine ⟨h'.unsigned.trans h.unsigned, ?_⟩
  have hcons : {s | ∃ b ∈ a :: l, s ∈ f b} = f a ∪ {s | ∃ b ∈ l, s ∈ f b} := by
    ext s
    simp
  rw [h'.sigs, Set.union_assoc, ← hcons]
  exact h.sigs

theorem Progress.adds (h : Progress m M f [] m') : m.Adds M m' := by
  refine ⟨h.unsigned, ?_⟩
  rw [← h.sigs]
  simp

end Input

/-! ## Messages

The messages are those of a new cache, whatever was asked of the cache before. -/

/-- What `sighash_ecdsa` returns. -/
def ecdsaMsg (p : Psbt S) (i : ℕ) : Outcome SignError (Hash × EcdsaSighashType) :=
  (p.sighashEcdsa i (SighashCache.new p.unsignedTx)).1.outcome

/-- What `sighash_taproot` returns. -/
def taprootMsg (p : Psbt S) (i : ℕ) (leafHash : Option TapLeafHash) : Outcome SignError (Hash × TapSighashType) :=
  (p.sighashTaproot i leafHash (SighashCache.new p.unsignedTx)).1.outcome

section Messages

variable {tx : Transaction} {list : List TxOut}

theorem transparent_legacyExpected (i : ℕ) (script : ScriptBuf) (hashTy : EcdsaSighashType) :
    Transparent (Faithful tx list) (legacyExpected i script hashTy) := by
  refine ⟨_, Realizes.bind (.read (a := (new tx).legacySignatureHash i script hashTy.toU32) fun s hs => ?_)
    fun _ _ => .ofOutcome _⟩
  obtain rfl := hs.tx_eq
  rfl

theorem transparent_p2wpkh (i : ℕ) (spk : ScriptBuf) (value : UInt64) (hashTy : EcdsaSighashType) :
    Transparent (Faithful tx list) (p2wpkhSignatureHash i spk value hashTy) := by
  refine .ofOutcome_bind fun code _ => ?_
  cases code with
  | none => exact .ofOutcome _
  | some scriptCode => exact ⟨_, Call.realizes_hashed _ ((realizes_segwitV0 _ _ _ _).mapErr _)⟩

theorem transparent_p2wsh (i : ℕ) (script : ScriptBuf) (value : UInt64) (hashTy : EcdsaSighashType) :
    Transparent (Faithful tx list) (p2wshSignatureHash i script value hashTy) :=
  ⟨_, Call.realizes_hashed _ (realizes_segwitV0 _ _ _ _)⟩

theorem transparent_ecdsaMessage (i : ℕ) (m : Input S) (utxo : TxOut) (hashTy : EcdsaSighashType)
    (ty : OutputType) : Transparent (Faithful tx list) (ecdsaMessage i m utxo hashTy ty) := by
  cases ty with
  | bare => exact transparent_legacyExpected _ _ _
  | sh => exact .ofOutcome_bind fun _ _ => transparent_legacyExpected _ _ _
  | wpkh => exact (transparent_p2wpkh _ _ _ _).mapErr _
  | shWpkh => exact .ofOutcome_bind fun _ _ => (transparent_p2wpkh _ _ _ _).mapErr _
  | wsh | shWsh => exact .ofOutcome_bind fun _ _ => (transparent_p2wsh _ _ _ _).mapErr _
  | tr => exact .ofOutcome _

theorem transparent_sighashEcdsa (p : Psbt S) (i : ℕ) : Transparent (Faithful tx list) (p.sighashEcdsa i) := by
  refine .ofOutcome_bind fun _ _ => .ofOutcome_bind fun _ _ => .ofOutcome_bind fun _ _ => ?_
  refine .ofOutcome_bind fun _ _ => .ofOutcome_bind fun _ _ => .ofOutcome_bind fun _ _ => ?_
  exact (transparent_ecdsaMessage _ _ _ _ _).bind fun _ => .pure _

theorem uses_spentOutputs {hashTy : TapSighashType} {prevouts : Prevouts}
    (h : prevOuts i hashTy (p.spends.map spentOutput) = .ok prevouts) :
    SighashCache.Uses p.spentOutputs prevouts := by
  rintro l rfl
  unfold prevOuts at h
  split_ifs at h
  · obtain ⟨utxo, -, h⟩ := Outcome.bind_eq_ok_iff.1 h
    obtain ⟨out, -, h⟩ := Outcome.bind_eq_ok_iff.1 h
    cases h
  · rw [List.filterMap_map] at h
    cases h
    rfl

theorem transparent_sighashTaproot (hlen : p.inputs.length = p.unsignedTx.input.length)
    (h : ∀ j, ¬p.OutOfBoundsAt j) (i : ℕ) (leafHash : Option TapLeafHash) :
    Transparent (Faithful p.unsignedTx p.spentOutputs) (p.sighashTaproot i leafHash) := by
  by_cases halgorithm : p.signingAlgorithm i = .ok .schnorr
  · obtain ⟨q, out, hq, hout, htr⟩ := of_signingAlgorithm_schnorr hlen (h i) halgorithm
    rw [sighashTaproot_eq hlen h hq hout htr]
    refine .ofOutcome_bind fun hashTy _ => .ofOutcome_bind fun prevouts hprevouts => ?_
    exact Transparent.bind ⟨_, realizes_taprootMessage (uses_spentOutputs hprevouts) _ _ _⟩ fun _ => .pure _
  · obtain ⟨e, he⟩ := sighashTaproot_of_not_schnorr hlen (h i) halgorithm leafHash
    rw [he]
    exact .ofOutcome _

end Messages

theorem ensures_attempt_sighashEcdsa (p : Psbt S) (i : ℕ) (list : List TxOut) :
    Ensures (Faithful p.unsignedTx list)
      ((p.sighashEcdsa i).attempt : Effect SighashCache SignError _) fun x =>
        (∃ r, x = .ok r ∧ p.ecdsaMsg i = .ofExcept r) ∨ ∃ e, x = .panic e := by
  have hmessage := (transparent_sighashEcdsa p i).realizes (faithful_new p.unsignedTx list)
  apply (Ensures.of_realizes (P := fun x => x = p.ecdsaMsg i) hmessage rfl).attempt
  · intro a ha
    exact Or.inl ⟨_, rfl, ha.symm⟩
  · intro e he
    exact Or.inl ⟨_, rfl, he.symm⟩
  · intro e _
    exact Or.inr ⟨e, rfl⟩

theorem ensures_sighashTaproot (hlen : p.inputs.length = p.unsignedTx.input.length)
    (h : ∀ j, ¬p.OutOfBoundsAt j) (i : ℕ) (leafHash : Option TapLeafHash) :
    Ensures (Faithful p.unsignedTx p.spentOutputs) (p.sighashTaproot i leafHash) (· = p.taprootMsg i leafHash) :=
  .of_realizes ((transparent_sighashTaproot hlen h i leafHash).realizes (faithful_new _ _)) rfl

/-- There is no message for the input. -/
structure NoMessage (p : Psbt S) (i : ℕ) : Prop where
  ecdsa : ∀ a, p.ecdsaMsg i ≠ .ok a
  taproot : ∀ leafHash a, p.taprootMsg i leafHash ≠ .ok a

theorem signingAlgorithm_of_ecdsaMsg {a : Hash × EcdsaSighashType} (h : p.ecdsaMsg i = .ok a) :
    p.signingAlgorithm i = .ok .ecdsa := by
  unfold ecdsaMsg sighashEcdsa at h
  cases halgorithm : p.signingAlgorithm i with
  | ok algorithm =>
    rw [halgorithm] at h
    cases algorithm with
    | ecdsa => rfl
    | schnorr => cases h
  | err e =>
    rw [halgorithm] at h
    cases h
  | panic e =>
    rw [halgorithm] at h
    cases h

theorem signingAlgorithm_of_taprootMsg {leafHash : Option TapLeafHash} {a : Hash × TapSighashType}
    (h : p.taprootMsg i leafHash = .ok a) : p.signingAlgorithm i = .ok .schnorr := by
  unfold taprootMsg sighashTaproot at h
  cases halgorithm : p.signingAlgorithm i with
  | ok algorithm =>
    rw [halgorithm] at h
    cases algorithm with
    | ecdsa => cases h
    | schnorr => rfl
  | err e =>
    rw [halgorithm] at h
    cases h
  | panic e =>
    rw [halgorithm] at h
    cases h

/-- Where the algorithm fails, there is no message. -/
theorem noMessage_of_signingAlgorithm (h : ∀ algorithm, p.signingAlgorithm i ≠ .ok algorithm) :
    NoMessage p i where
  ecdsa _ ha := h _ (signingAlgorithm_of_ecdsaMsg ha)
  taproot _ _ ha := h _ (signingAlgorithm_of_taprootMsg ha)

theorem noMessage_of_ecdsaMsg (halgorithm : p.signingAlgorithm i = .ok .ecdsa) {e : SignError}
    (h : p.ecdsaMsg i = .err e) : NoMessage p i where
  ecdsa a ha := by
    rw [h] at ha
    cases ha
  taproot leafHash a ha := by cases halgorithm.symm.trans (signingAlgorithm_of_taprootMsg ha)

/-- There are messages for all leaves and the key, or for none of them. -/
theorem noMessage_of_taprootMsg (hp : p.Limited) (h : ∀ j, ¬p.OutOfBoundsAt j)
    (halgorithm : p.signingAlgorithm i = .ok .schnorr) {leafHash : Option TapLeafHash} {e : SignError}
    (he : p.taprootMsg i leafHash = .err e) : NoMessage p i where
  ecdsa a ha := by cases halgorithm.symm.trans (signingAlgorithm_of_ecdsaMsg ha)
  taproot leafHash' a ha := by
    have hends : ∀ leafHash, Outcome.EndsBy (p.Signable i) (p.taprootMsg i leafHash) := fun leafHash =>
      (endsBy_sighashTaproot hp h i leafHash _ (faithful_new _ _)).1
    have hno : ¬p.Signable i := by
      intro hsign
      obtain ⟨b, hb⟩ := (hends leafHash).1 hsign
      cases hb.symm.trans he
    obtain ⟨e', he'⟩ := (hends leafHash').2 hno
    cases he'.symm.trans ha

/-! ## The signatures that are made -/

section Signer

variable {E : Type} (secp : Signing S) (k : GetKey S E)

/-- The private key for an entry of `bip32_derivation`. -/
def ecdsaKeyFor (entry : S.PublicKey × KeySource) : Option (PrivateKey S.toSecp256k1) :=
  (getKey k (.bip32 entry.2)).or (getKey k (.pubkey ⟨true, entry.1⟩))

/-- The signature for an entry of `bip32_derivation`. -/
def ecdsaSigs (message : Outcome SignError (Hash × EcdsaSighashType)) (entry : S.PublicKey × KeySource) :
    Set (Sig S) :=
  {s | ∃ sk msg ty, ecdsaKeyFor k entry = some sk ∧ message = .ok (msg, ty) ∧
    s = .partialSig sk.publicKey ⟨secp.signEcdsa msg sk.inner, ty⟩}

/-- The signature of a key path spend, with the private key for an entry of `tap_key_origins`. -/
def keyPathSigs (p : Psbt S) (i : ℕ) (m : Input S) (entry : S.XOnlyPublicKey × List TapLeafHash × KeySource)
    (sk : PrivateKey S.toSecp256k1) : Set (Sig S) :=
  {s | m.tapInternalKey = some entry.1 ∧ entry.2.1 = [] ∧ ∃ msg ty keyPair, p.taprootMsg i none = .ok (msg, ty) ∧
    secp.tapTweak (secp.fromSecretKey sk.inner) m.tapMerkleRoot = .ok keyPair ∧
    s = .tapKeySig ⟨secp.signSchnorr msg keyPair, ty⟩}

/-- The signature of a script path spend. -/
def leafSigs (p : Psbt S) (i : ℕ) (keyPair : secp.Keypair) (xonly : S.XOnlyPublicKey) (lh : TapLeafHash) :
    Set (Sig S) :=
  {s | ∃ msg ty, p.taprootMsg i (some lh) = .ok (msg, ty) ∧
    s = .tapScriptSig (toLex (xonly, lh)) ⟨secp.signSchnorr msg keyPair, ty⟩}

/-- The signatures of the script path spends with the private key for an entry of `tap_key_origins`. -/
def scriptPathSigs (p : Psbt S) (i : ℕ) (entry : S.XOnlyPublicKey × List TapLeafHash × KeySource)
    (sk : PrivateKey S.toSecp256k1) : Set (Sig S) :=
  {s | ∃ lh ∈ entry.2.1, s ∈ leafSigs secp p i (secp.fromSecretKey sk.inner) entry.1 lh}

/-- The signatures for an entry of `tap_key_origins`. -/
def schnorrSigs (p : Psbt S) (i : ℕ) (m : Input S) (entry : S.XOnlyPublicKey × List TapLeafHash × KeySource) :
    Set (Sig S) :=
  {s | ∃ sk, keyFor k entry = some sk ∧ s ∈ keyPathSigs secp p i m entry sk ∪ scriptPathSigs secp p i entry sk}

/-- The signatures that a signer makes for an input, whatever signatures are there already. -/
def made (p : Psbt S) (i : ℕ) : Set (Sig S) :=
  {s | ∃ m, p.inputs[i]? = some m ∧
    ((∃ entry ∈ m.bip32Derivation.toList, s ∈ ecdsaSigs secp k (p.ecdsaMsg i) entry) ∨
      ∃ entry ∈ m.tapKeyOrigins.toList, s ∈ schnorrSigs secp k p i m entry)}

variable {secp k}

theorem NoMessage.made (h : NoMessage p i) : made secp k p i = ∅ := by
  rw [Set.eq_empty_iff_forall_notMem]
  rintro s ⟨m, -, ⟨entry, -, sk, msg, ty, -, hmsg, -⟩ | ⟨entry, -, sk, -, hs | ⟨lh, -, msg, ty, hmsg, -⟩⟩⟩
  · exact h.ecdsa _ hmsg
  · obtain ⟨-, -, msg, ty, keyPair, hmsg, -⟩ := hs
    exact h.taproot _ _ hmsg
  · exact h.taproot _ _ hmsg

theorem keyPathSigs_congr {m m' : Input S} (h : m'.unsigned = m.unsigned)
    (entry : S.XOnlyPublicKey × List TapLeafHash × KeySource) (sk : PrivateKey S.toSecp256k1) :
    keyPathSigs secp p i m' entry sk = keyPathSigs secp p i m entry sk := by
  have hkey : m'.tapInternalKey = m.tapInternalKey := by
    have hfield := congrArg Input.tapInternalKey h
    exact hfield
  have hroot : m'.tapMerkleRoot = m.tapMerkleRoot := by
    have hfield := congrArg Input.tapMerkleRoot h
    exact hfield
  rw [keyPathSigs, hkey, hroot, keyPathSigs]

theorem made_of_ecdsa {m : Input S} (hm : p.inputs[i]? = some m) (halgorithm : p.signingAlgorithm i = .ok .ecdsa) :
    made secp k p i = {s | ∃ entry ∈ m.bip32Derivation.toList, s ∈ ecdsaSigs secp k (p.ecdsaMsg i) entry} := by
  have hno : ∀ leafHash a, p.taprootMsg i leafHash ≠ .ok a := fun leafHash a ha => by
    cases halgorithm.symm.trans (signingAlgorithm_of_taprootMsg ha)
  ext s
  constructor
  · rintro ⟨m', hm', hs | ⟨entry, -, sk, -, ⟨-, -, msg, ty, -, hmsg, -⟩ | ⟨lh, -, msg, ty, hmsg, -⟩⟩⟩
    · obtain rfl := Option.some.inj (hm.symm.trans hm')
      exact hs
    · exact absurd hmsg (hno _ _)
    · exact absurd hmsg (hno _ _)
  · intro hs
    exact ⟨m, hm, Or.inl hs⟩

theorem made_of_schnorr {m : Input S} (hm : p.inputs[i]? = some m)
    (halgorithm : p.signingAlgorithm i = .ok .schnorr) :
    made secp k p i = {s | ∃ entry ∈ m.tapKeyOrigins.toList, s ∈ schnorrSigs secp k p i m entry} := by
  ext s
  constructor
  · rintro ⟨m', hm', ⟨entry, -, sk, msg, ty, -, hmsg, -⟩ | hs⟩
    · cases halgorithm.symm.trans (signingAlgorithm_of_ecdsaMsg hmsg)
    · obtain rfl := Option.some.inj (hm.symm.trans hm')
      exact hs
  · intro hs
    exact ⟨m, hm, Or.inr hs⟩

end Signer

/-! ## Whole transactions -/

/-- The signatures of an input. -/
def sigsAt (p : Psbt S) (i : ℕ) : Set (Sig S) := {s | ∃ m, p.inputs[i]? = some m ∧ s ∈ m.sigs}

theorem sigsAt_of_some {m : Input S} (h : p.inputs[i]? = some m) : p.sigsAt i = m.sigs := by
  ext s
  simp [sigsAt, h]

theorem sigsAt_of_none (h : p.inputs[i]? = none) : p.sigsAt i = ∅ := by
  ext s
  simp [sigsAt, h]

theorem sigsAt_congr (h : q.inputs[i]? = p.inputs[i]?) : q.sigsAt i = p.sigsAt i := by
  simp only [sigsAt, h]

/-- A transaction is given by its signatures and the rest. -/
theorem ext_sigsAt (hunsigned : p.unsigned = q.unsigned) (hsigs : ∀ i, p.sigsAt i = q.sigsAt i) : p = q := by
  have hmaps : p.inputs.map Input.unsigned = q.inputs.map Input.unsigned := congrArg Psbt.inputs hunsigned
  have hinputs : p.inputs = q.inputs := by
    apply List.ext_getElem?
    intro i
    have hi : (p.inputs[i]?).map Input.unsigned = (q.inputs[i]?).map Input.unsigned := by
      rw [← List.getElem?_map, ← List.getElem?_map, hmaps]
    have hsigs := hsigs i
    cases hm : p.inputs[i]? with
    | none =>
      rw [hm] at hi
      exact (Option.map_eq_none_iff.1 hi.symm).symm
    | some m =>
      rw [hm] at hi
      obtain ⟨m', hm', hunsigned'⟩ := Option.map_eq_some_iff.1 hi.symm
      rw [sigsAt_of_some hm, sigsAt_of_some hm'] at hsigs
      rw [hm', Input.ext_sigs hunsigned'.symm hsigs]
  have hrest : { p.unsigned with inputs := p.inputs } = { q.unsigned with inputs := q.inputs } := by
    rw [hunsigned, hinputs]
  exact hrest

/-! ### Messages do not depend on signatures -/

theorem index_map {ε α β : Type} (f : α → β) (l : List α) (i : ℕ) :
    (index (l.map f) i : Outcome ε β) = f <$> index l i := by
  unfold index
  rw [List.getElem?_map]
  cases l[i]? <;> rfl

theorem checkedInput_unsigned (p : Psbt S) (i : ℕ) :
    p.unsigned.checkedInput i = Input.unsigned <$> p.checkedInput i := by
  have hcheck : p.unsigned.checkIndexIsWithinBounds i = p.checkIndexIsWithinBounds i := by
    rw [checkIndexIsWithinBounds, length_unsigned]
    rfl
  rw [checkedInput, hcheck, checkedInput, map_bind]
  congr 1
  funext _
  exact index_map _ _ _

theorem spendUtxo_unsigned (p : Psbt S) (i : ℕ) : p.unsigned.spendUtxo i = p.spendUtxo i := by
  rw [spendUtxo, checkedInput_unsigned, spendUtxo]
  cases p.checkedInput i <;> rfl

theorem outputType_unsigned (p : Psbt S) (i : ℕ) : p.unsigned.outputType i = p.outputType i := by
  rw [outputType, checkedInput_unsigned, spendUtxo_unsigned, outputType]
  cases p.checkedInput i <;> rfl

theorem signingAlgorithm_unsigned (p : Psbt S) (i : ℕ) : p.unsigned.signingAlgorithm i = p.signingAlgorithm i := by
  rw [signingAlgorithm, outputType_unsigned, signingAlgorithm]

theorem ecdsaMsg_unsigned (p : Psbt S) (i : ℕ) : p.unsigned.ecdsaMsg i = p.ecdsaMsg i := by
  rw [ecdsaMsg, sighashEcdsa, signingAlgorithm_unsigned, checkedInput_unsigned, spendUtxo_unsigned,
    outputType_unsigned, ecdsaMsg, sighashEcdsa]
  cases p.checkedInput i <;> rfl

theorem taprootMsg_unsigned (p : Psbt S) (i : ℕ) (leafHash : Option TapLeafHash) :
    p.unsigned.taprootMsg i leafHash = p.taprootMsg i leafHash := by
  have hspend : p.unsigned.spendUtxoOk = p.spendUtxoOk := by
    funext j
    rw [spendUtxoOk, spendUtxo_unsigned, spendUtxoOk]
  rw [taprootMsg, sighashTaproot, signingAlgorithm_unsigned, checkedInput_unsigned, outputType_unsigned, hspend,
    length_unsigned, taprootMsg, sighashTaproot]
  cases p.checkedInput i <;> rfl

section Signer

variable {E : Type} {secp : Signing S} {k : GetKey S E}

theorem made_unsigned (p : Psbt S) (i : ℕ) : made secp k p.unsigned i = made secp k p i := by
  have hmaps : p.unsigned.inputs[i]? = (p.inputs[i]?).map Input.unsigned := List.getElem?_map
  have hkeyPath : ∀ (m : Input S) entry sk,
      keyPathSigs secp p.unsigned i m.unsigned entry sk = keyPathSigs secp p i m entry sk := by
    intro m entry sk
    simp only [keyPathSigs, taprootMsg_unsigned]
    rfl
  have hleaf : leafSigs secp p.unsigned i = leafSigs secp p i := by
    funext keyPair xonly lh
    simp only [leafSigs, taprootMsg_unsigned]
  ext s
  simp only [made, schnorrSigs, scriptPathSigs, hmaps, Option.map_eq_some_iff, Set.mem_ofPred_eq,
    exists_exists_and_eq_and, ecdsaMsg_unsigned, hkeyPath, hleaf]
  rfl

/-- The signatures that a signer makes do not depend on those that are there. -/
theorem made_congr (h : q.unsigned = p.unsigned) (i : ℕ) : made secp k q i = made secp k p i := by
  rw [← made_unsigned, h, made_unsigned]

end Signer

end Psbt

end RustDogecoin
