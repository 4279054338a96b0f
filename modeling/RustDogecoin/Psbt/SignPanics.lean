import RustDogecoin.Psbt.TaprootMessage

/-!
# When the signer panics

The loop of `sign` adds signatures to the input maps and nothing else, so a turn sees the outputs that are
spent as they were before the loop, and the map of its own input untouched.  Hence the loop panics exactly if
an output that is spent cannot be looked up, or the key pair of a key path spend cannot be tweaked.

`neverPanics_iff` puts this together with the panics of `spend_utxo` and `sighash_ecdsa`.
-/

namespace RustDogecoin

open Sighash SighashCache Effect

namespace Psbt

variable {S : KeyFormats} {p p' : Psbt S} {i : ℕ}

/-! ## What signing keeps -/

/-- The map without the signatures that `sign` adds. -/
def Input.unsigned (m : Input S) : Input S := { m with partialSigs := ∅, tapKeySig := none, tapScriptSigs := ∅ }

def unsigned (p : Psbt S) : Psbt S := { p with inputs := p.inputs.map Input.unsigned }

/-- Nothing has changed but signatures of the input at the index. -/
structure SignedAt (i : ℕ) (p p' : Psbt S) : Prop where
  unsigned : p'.unsigned = p.unsigned
  others : ∀ j, j ≠ i → p'.inputs[j]? = p.inputs[j]?

theorem signedAt_set {m m' : Input S} (h : p.inputs[i]? = some m) (hm : m'.unsigned = m.unsigned) :
    SignedAt i p { p with inputs := p.inputs.set i m' } where
  unsigned := by
    have hset : p.inputs.set i m = p.inputs := by
      apply List.ext_getElem?
      intro j
      rw [List.getElem?_set]
      split_ifs with hj hlt
      · rw [← hj, h]
      · rw [List.getElem?_eq_none (by omega)]
      · rfl
    show ({ p with inputs := (p.inputs.set i m').map Input.unsigned } : Psbt S) = _
    rw [List.map_set, hm, ← List.map_set, hset]
    rfl
  others j hj := List.getElem?_set_ne (Ne.symm hj)

theorem length_unsigned (p : Psbt S) : p.unsigned.inputs.length = p.inputs.length := List.length_map _

theorem spends_unsigned (p : Psbt S) : p.unsigned.spends = p.spends.map (Prod.map id Input.unsigned) :=
  List.zip_map_right

theorem spentOutputs_unsigned (p : Psbt S) : p.unsigned.spentOutputs = p.spentOutputs := by
  rw [spentOutputs, spends_unsigned, List.filterMap_map]
  rfl

theorem outOfBoundsAt_unsigned : p.unsigned.OutOfBoundsAt i ↔ p.OutOfBoundsAt i := by
  simp only [OutOfBoundsAt, spends_unsigned, List.getElem?_map, Option.map_eq_some_iff, exists_exists_and_eq_and]
  rfl

theorem allSpent_unsigned {qs : List (TxIn × Input S)} :
    AllSpent (qs.map (Prod.map id Input.unsigned)) ↔ AllSpent qs := by
  rw [AllSpent, List.forall_mem_map]
  rfl

theorem signable_unsigned : p.unsigned.Signable i ↔ p.Signable i := by
  simp only [Signable, spends_unsigned, allSpent_unsigned, List.getElem?_map, Option.map_eq_some_iff]
  constructor
  · rintro ⟨_, out, hashTy, ⟨q, hq, rfl⟩, hrest⟩
    exact ⟨q, out, hashTy, hq, hrest⟩
  · rintro ⟨q, out, hashTy, hq, hrest⟩
    exact ⟨_, out, hashTy, ⟨q, hq, rfl⟩, hrest⟩

theorem limited_unsigned : p.unsigned.Limited ↔ p.Limited := by
  constructor
  · rintro ⟨htx, hlen, hinputs⟩
    refine ⟨htx, (length_unsigned p).symm.trans hlen, fun m hm => ?_⟩
    obtain ⟨h₁, h₂, h₃, h₄, h₅, h₆⟩ := hinputs _ (List.mem_map_of_mem hm)
    exact ⟨h₁, h₂, h₃, h₄, h₅, h₆⟩
  · rintro ⟨htx, hlen, hinputs⟩
    refine ⟨htx, (length_unsigned p).trans hlen, fun m' hm' => ?_⟩
    obtain ⟨m, hm, rfl⟩ := List.mem_map.1 hm'
    obtain ⟨h₁, h₂, h₃, h₄, h₅, h₆⟩ := hinputs m hm
    exact ⟨h₁, h₂, h₃, h₄, h₅, h₆⟩

section Signer

variable {E : Type} (secp : Signing S) (k : GetKey S E)

theorem unsigned_of_signEcdsaWith {message : Except SignError (Hash × EcdsaSighashType)}
    {state state' : Input S × List (PublicKey S)} {entry : S.PublicKey × KeySource}
    (h : signEcdsaWith secp k message state entry = .ok state') : state'.1.unsigned = state.1.unsigned := by
  unfold signEcdsaWith at h
  cases hkey : (getKey k (.bip32 entry.2)).or (getKey k (.pubkey ⟨true, entry.1⟩)) with
  | none =>
    rw [hkey] at h
    obtain rfl := Outcome.ok.inj h
    rfl
  | some sk =>
    rw [hkey] at h
    obtain ⟨msg, -, hret⟩ := Outcome.bind_eq_ok_iff.1 h
    obtain rfl := Outcome.ok.inj hret
    rfl

theorem index_eq_ok_iff {ε α : Type} {l : List α} {a : α} : (index l i : Outcome ε α) = .ok a ↔ l[i]? = some a := by
  unfold index
  cases l[i]? <;> simp

theorem getElem?_of_checkedInput {m : Input S} (h : p.checkedInput i = .ok m) : p.inputs[i]? = some m := by
  obtain ⟨-, -, hindex⟩ := Outcome.bind_eq_ok_iff.1 h
  exact index_eq_ok_iff.1 hindex

theorem yields_bip32SignEcdsa (p : Psbt S) (i : ℕ) :
    Yields (bip32SignEcdsa secp k p i) fun r => SignedAt i p r.2 := by
  refine .of_bind fun message => ?_
  refine .bind (.ofOutcome (Q := fun m => p.inputs[i]? = some m) fun m => index_eq_ok_iff.1) fun m hm => ?_
  refine .bind (.ofOutcome (Q := fun state => state.1.unsigned = m.unsigned) fun state hfold => ?_)
    fun state hstate => .pure (signedAt_set hm hstate)
  have hturn : ∀ state entry state', state.1.unsigned = m.unsigned → True →
      signEcdsaWith secp k message state entry = .ok state' → state'.1.unsigned = m.unsigned := by
    intro state entry state' hstate _ hturn
    exact (unsigned_of_signEcdsaWith secp k hturn).trans hstate
  exact Entries.foldlM_invariant hturn (fun _ _ => trivial) rfl hfold

theorem yields_signKeyPath (sk : PrivateKey S.toSecp256k1) (xonly : S.XOnlyPublicKey)
    (leafHashes : List TapLeafHash) (state : Input S × List S.XOnlyPublicKey) :
    Yields (signKeyPath secp p i sk xonly leafHashes state) fun r => r.1.unsigned = state.1.unsigned := by
  unfold signKeyPath
  split_ifs
  · exact .of_bind fun _ => .of_bind fun _ => .pure rfl
  · exact .pure rfl

theorem yields_signScriptPath (sk : PrivateKey S.toSecp256k1) (xonly : S.XOnlyPublicKey)
    (state : Input S × List S.XOnlyPublicKey) :
    Yields (signScriptPath secp p i sk xonly state) fun r => r.1.unsigned = state.1.unsigned := by
  unfold signScriptPath
  cases state.1.tapKeyOrigins[xonly]? with
  | none => exact .pure rfl
  | some origin =>
    dsimp only
    split_ifs
    · refine .bind (.foldlM (Q := fun m => m.unsigned = state.1.unsigned) (fun m lh hm => ?_) _ rfl)
        fun m hm => .pure hm
      exact .of_bind fun _ => .pure hm
    · exact .pure rfl

theorem yields_bip32SignSchnorr (p : Psbt S) (i : ℕ) :
    Yields (bip32SignSchnorr secp k p i) fun r => SignedAt i p r.2 := by
  refine .bind (.ofOutcome (Q := fun m => p.inputs[i]? = some m) fun m => getElem?_of_checkedInput) fun m hm => ?_
  refine .bind (.foldlM (Q := fun state => state.1.unsigned = m.unsigned) (fun state entry hstate => ?_) _ rfl)
    fun state hstate => .pure (signedAt_set hm hstate)
  unfold signSchnorrWith
  cases (getKey k (.bip32 entry.2.2)).or (getKey k (.xOnlyPubkey entry.1)) with
  | none => exact .pure hstate
  | some sk =>
    refine .bind (yields_signKeyPath secp sk entry.1 entry.2.1 state) fun state' hstate' => ?_
    intro cache r hr
    exact (yields_signScriptPath secp sk entry.1 state' cache r hr).trans (hstate'.trans hstate)

/-- A turn changes nothing but signatures of its input. -/
theorem yields_signInput (p : Psbt S) (i : ℕ) : Yields (signInput secp k p i) fun r => SignedAt i p r.2 := by
  refine .of_bind fun algorithm => ?_
  cases algorithm with
  | ecdsa => exact .bind (yields_bip32SignEcdsa secp k p i) fun r hr => .pure hr
  | schnorr => exact .bind (yields_bip32SignSchnorr secp k p i) fun r hr => .pure hr

/-! ## Key path spends -/

/-- The private key for an entry of `tap_key_origins`. -/
def keyFor (entry : S.XOnlyPublicKey × List TapLeafHash × KeySource) : Option (PrivateKey S.toSecp256k1) :=
  (getKey k (.bip32 entry.2.2)).or (getKey k (.xOnlyPubkey entry.1))

/-- The entry is the one of the internal key, without a signature yet, and its key pair cannot be tweaked. -/
def TweakFails (m : Input S) (entry : S.XOnlyPublicKey × List TapLeafHash × KeySource) : Prop :=
  m.tapInternalKey = some entry.1 ∧ entry.2.1 = [] ∧ m.tapKeySig = none ∧
    ∃ sk, keyFor k entry = some sk ∧ ∃ e, secp.tapTweak (secp.fromSecretKey sk.inner) m.tapMerkleRoot = .panic e

/-- There is a message for the input, but the key pair for its key path spend cannot be tweaked. -/
def KeyPathFails (p : Psbt S) (i : ℕ) : Prop :=
  p.Signable i ∧ ∃ m, p.inputs[i]? = some m ∧ ∃ entry ∈ m.tapKeyOrigins.toList, TweakFails secp k m entry

variable {secp k}

theorem KeyPathFails.of_eq (h : KeyPathFails secp k p i) (hunsigned : p'.unsigned = p.unsigned)
    (hinput : p'.inputs[i]? = p.inputs[i]?) : KeyPathFails secp k p' i := by
  obtain ⟨hsign, m, hm, hentry⟩ := h
  refine ⟨?_, m, hinput.trans hm, hentry⟩
  rw [← signable_unsigned, hunsigned, signable_unsigned]
  exact hsign

/-- Between two entries: the signature of the internal key is only there if its entry was. -/
structure Between (m : Input S) (l : List (S.XOnlyPublicKey × List TapLeafHash × KeySource))
    (state : Input S × List S.XOnlyPublicKey) : Prop where
  unsigned : state.1.unsigned = m.unsigned
  tapKeySig : ∀ entry ∈ l, m.tapInternalKey = some entry.1 → state.1.tapKeySig = m.tapKeySig
  distinct : l.Pairwise fun a b => a.1 ≠ b.1

theorem Between.tapInternalKey {m : Input S} {l : List (S.XOnlyPublicKey × List TapLeafHash × KeySource)}
    {state : Input S × List S.XOnlyPublicKey} (h : Between m l state) :
    state.1.tapInternalKey = m.tapInternalKey := by
  have hfield := congrArg Input.tapInternalKey h.unsigned
  exact hfield

theorem Between.tapMerkleRoot {m : Input S} {l : List (S.XOnlyPublicKey × List TapLeafHash × KeySource)}
    {state : Input S × List S.XOnlyPublicKey} (h : Between m l state) :
    state.1.tapMerkleRoot = m.tapMerkleRoot := by
  have hfield := congrArg Input.tapMerkleRoot h.unsigned
  exact hfield

/-- After an entry, which has signed only if it is the one of the internal key. -/
theorem Between.next {m : Input S} {entry : S.XOnlyPublicKey × List TapLeafHash × KeySource}
    {l : List (S.XOnlyPublicKey × List TapLeafHash × KeySource)} {state state' : Input S × List S.XOnlyPublicKey}
    (hstate : Between m (entry :: l) state) (hunsigned : state'.1.unsigned = state.1.unsigned)
    (hsig : m.tapInternalKey ≠ some entry.1 → state'.1.tapKeySig = state.1.tapKeySig) : Between m l state' := by
  obtain ⟨hne, hdistinct⟩ := List.pairwise_cons.1 hstate.distinct
  refine ⟨hunsigned.trans hstate.unsigned, fun entry' hmem hkey => ?_, hdistinct⟩
  have hother : m.tapInternalKey ≠ some entry.1 := by
    intro heq
    exact hne entry' hmem (Option.some.inj (heq.symm.trans hkey))
  rw [hsig hother]
  exact hstate.tapKeySig entry' (List.mem_cons_of_mem _ hmem) hkey

section Turn

variable (hp : p.Limited) (h : ∀ j, ¬p.OutOfBoundsAt j)

include hp h

theorem returns_sighashTaproot (hsign : p.Signable i) (leafHash : Option TapLeafHash) :
    Ensures (Faithful p.unsignedTx p.spentOutputs) (p.sighashTaproot i leafHash) fun x =>
      ∃ a, x = .ok a ∧ True :=
  (endsBy_sighashTaproot hp h i leafHash).mono fun _ hx => by simpa using hx.1 hsign

theorem returns_signScriptPath (hsign : p.Signable i) (sk : PrivateKey S.toSecp256k1) (xonly : S.XOnlyPublicKey)
    (state : Input S × List S.XOnlyPublicKey) :
    Ensures (Faithful p.unsignedTx p.spentOutputs) (signScriptPath secp p i sk xonly state) fun x =>
      ∃ r, x = .ok r ∧ r.1.unsigned = state.1.unsigned ∧ r.1.tapKeySig = state.1.tapKeySig := by
  unfold signScriptPath
  cases state.1.tapKeyOrigins[xonly]? with
  | none => exact .pure ⟨state, rfl, rfl, rfl⟩
  | some origin =>
    dsimp only
    split_ifs
    · refine Ensures.bind_returns (Q := fun m : Input S => m.unsigned = state.1.unsigned ∧
        m.tapKeySig = state.1.tapKeySig) ?_ fun m hm => .pure ⟨_, rfl, hm⟩
      refine Ensures.foldlM_returns (J := fun _ (m : Input S) => m.unsigned = state.1.unsigned ∧
        m.tapKeySig = state.1.tapKeySig) (fun lh l m hm => ?_) ⟨rfl, rfl⟩
      exact (returns_sighashTaproot hp h hsign (some lh)).bind_returns fun _ _ => .pure ⟨_, rfl, hm⟩
    · exact .pure ⟨state, rfl, rfl, rfl⟩

/-- The key path spend panics exactly if the key pair cannot be tweaked. -/
theorem ends_signKeyPath (hsign : p.Signable i) (sk : PrivateKey S.toSecp256k1) (xonly : S.XOnlyPublicKey)
    (leafHashes : List TapLeafHash) (state : Input S × List S.XOnlyPublicKey) :
    Ensures (Faithful p.unsignedTx p.spentOutputs) (signKeyPath secp p i sk xonly leafHashes state) fun x =>
      (∃ e, x = .panic e ∧ state.1.tapInternalKey = some xonly ∧ leafHashes = [] ∧ state.1.tapKeySig = none ∧
        secp.tapTweak (secp.fromSecretKey sk.inner) state.1.tapMerkleRoot = .panic e) ∨
      ∃ r, x = .ok r ∧ r.1.unsigned = state.1.unsigned ∧
        (state.1.tapInternalKey = some xonly → leafHashes = [] → state.1.tapKeySig = none →
          ∃ key, secp.tapTweak (secp.fromSecretKey sk.inner) state.1.tapMerkleRoot = .ok key) ∧
        (state.1.tapInternalKey ≠ some xonly → r.1.tapKeySig = state.1.tapKeySig) := by
  unfold signKeyPath
  split_ifs with hcond
  · obtain ⟨hkey, hleaves, hsig⟩ := hcond
    refine (returns_sighashTaproot hp h hsign none).bind_returns fun a _ => ?_
    cases htweak : secp.tapTweak (secp.fromSecretKey sk.inner) state.1.tapMerkleRoot with
    | ok key =>
      exact .pure (Or.inr ⟨_, rfl, rfl, fun _ _ _ => ⟨key, rfl⟩, fun hne => absurd hkey hne⟩)
    | err e => exact e.elim
    | panic e =>
      exact .ofOutcome (Or.inl ⟨e, rfl, hkey, hleaves, Option.isNone_iff_eq_none.1 hsig, rfl⟩)
  · refine .pure (Or.inr ⟨state, rfl, rfl, fun hkey hleaves hsig => ?_, fun _ => rfl⟩)
    exact absurd ⟨hkey, hleaves, Option.isNone_iff_eq_none.2 hsig⟩ hcond

/-- With a message for the input, an entry panics exactly if its key pair cannot be tweaked. -/
theorem ends_signSchnorrWith (hsign : p.Signable i) {m : Input S}
    {entry : S.XOnlyPublicKey × List TapLeafHash × KeySource}
    {l : List (S.XOnlyPublicKey × List TapLeafHash × KeySource)} {state : Input S × List S.XOnlyPublicKey}
    (hstate : Between m (entry :: l) state) :
    Ensures (Faithful p.unsignedTx p.spentOutputs) (signSchnorrWith secp k p i state entry) fun x =>
      TweakFails secp k m entry ∧ (∃ e, x = .panic e) ∨
        ¬TweakFails secp k m entry ∧ ∃ r, x = .ok r ∧ Between m l r := by
  have hkey : state.1.tapInternalKey = m.tapInternalKey := hstate.tapInternalKey
  have hroot : state.1.tapMerkleRoot = m.tapMerkleRoot := hstate.tapMerkleRoot
  have hsig := hstate.tapKeySig entry List.mem_cons_self
  unfold signSchnorrWith
  rw [← keyFor]
  cases hfound : keyFor k entry with
  | none =>
    refine .pure (Or.inr ⟨?_, state, rfl, hstate.next rfl fun _ => rfl⟩)
    rintro ⟨-, -, -, sk, hsk, -⟩
    rw [hfound] at hsk
    cases hsk
  | some sk =>
    apply (ends_signKeyPath hp h hsign sk entry.1 entry.2.1 state).bind
    · rintro r (⟨e, he, -⟩ | ⟨r', hr, hunsigned, htweak, hother⟩)
      · cases he
      cases hr
      refine ((returns_signScriptPath hp h hsign sk entry.1 r).mono ?_)
      rintro x ⟨r', hx, hunsigned', hsig'⟩
      refine Or.inr ⟨?_, r', hx, hstate.next (hunsigned'.trans hunsigned) fun hne => ?_⟩
      · rintro ⟨hinternal, hleaves, hnone, sk', hsk', e, he⟩
        obtain rfl := Option.some.inj (hfound.symm.trans hsk')
        obtain ⟨key, hok⟩ := htweak (hkey.trans hinternal) hleaves ((hsig hinternal).trans hnone)
        rw [hroot, he] at hok
        cases hok
      · exact hsig'.trans (hother (by rwa [hkey]))
    · rintro e (⟨_, he, -⟩ | ⟨_, he, -⟩) <;> cases he
    · rintro e (⟨e', he, hinternal, hleaves, hnone, htweak⟩ | ⟨_, he, -⟩)
      · rw [hkey] at hinternal
        rw [hsig hinternal] at hnone
        rw [hroot] at htweak
        exact Or.inl ⟨⟨hinternal, hleaves, hnone, sk, hfound, e', htweak⟩, e, rfl⟩
      · cases he

/-- Without a message for the input, an entry does not panic. -/
theorem safe_signSchnorrWith (hsign : ¬p.Signable i) (state : Input S × List S.XOnlyPublicKey)
    (entry : S.XOnlyPublicKey × List TapLeafHash × KeySource) :
    Safe (Faithful p.unsignedTx p.spentOutputs) (signSchnorrWith secp k p i state entry) := by
  have hmessage := endsBy_sighashTaproot hp h i
  unfold signSchnorrWith
  cases (getKey k (.bip32 entry.2.2)).or (getKey k (.xOnlyPubkey entry.1)) with
  | none => exact .pure state
  | some sk =>
    refine Safe.bind ?_ fun state' => ?_
    · unfold signKeyPath
      refine .ite ?_ (.pure state)
      refine (hmessage none).bind (fun a ha => ?_) (fun e _ => Outcome.noPanic_err e)
        fun e he => absurd rfl (he.noPanic e)
      obtain ⟨e, he⟩ := ha.2 hsign
      cases he
    · unfold signScriptPath
      cases state'.1.tapKeyOrigins[entry.1]? with
      | none => exact .pure state'
      | some origin =>
        refine .ite ?_ (.pure state')
        refine Safe.bind (.foldlM (fun m lh => ?_) _ _) fun _ => .pure _
        exact Safe.bind ((hmessage (some lh)).mono fun _ hx => hx.noPanic) fun _ => .pure _

/-- The loop over the entries panics exactly if there is a message, and a key pair cannot be tweaked. -/
theorem panicsIff_bip32SignSchnorr {q : TxIn × Input S} (hq : p.spends[i]? = some q) :
    Ensures (Faithful p.unsignedTx p.spentOutputs) (bip32SignSchnorr secp k p i)
      (Outcome.PanicsIff (KeyPathFails secp k p i)) := by
  have hinput := (spends_eq_some_iff.1 hq).2
  have hfails : KeyPathFails secp k p i ↔
      p.Signable i ∧ ∃ entry ∈ q.2.tapKeyOrigins.toList, TweakFails secp k q.2 entry := by
    simp [KeyPathFails, hinput]
  rw [bip32SignSchnorr, checkedInput_of_some hq, ofOutcome_ok_bind, hfails]
  refine Safe.panicsIff_bind ?_ fun _ => .pure _
  by_cases hsign : p.Signable i
  swap
  · apply (Safe.foldlM (safe_signSchnorrWith hp h hsign) _ _).mono
    intro x hx
    exact .of_noPanic (fun hfail => hsign hfail.1) hx
  rw [and_iff_right hsign]
  have hstart : Between q.2 q.2.tapKeyOrigins.toList (q.2, []) :=
    ⟨rfl, fun _ _ _ => rfl, BTreeMap.pairwise_toList _⟩
  by_cases hfatal : ∃ entry ∈ q.2.tapKeyOrigins.toList, TweakFails secp k q.2 entry
  · refine (Ensures.foldlM_panics (J := Between q.2) (fun entry l state hstate => ?_) hfatal hstart).mono ?_
    · exact (ends_signSchnorrWith hp h hsign hstate).mono fun x hx => hx.imp_left And.right
    · rintro x ⟨e, rfl⟩
      exact .of_panic hfatal e
  · refine (Ensures.foldlM_returns
      (J := fun l state => Between q.2 l state ∧ ∀ entry ∈ l, ¬TweakFails secp k q.2 entry) ?_
      ⟨hstart, fun entry hentry hfail => hfatal ⟨entry, hentry, hfail⟩⟩).mono ?_
    · rintro entry l state ⟨hstate, hno⟩
      apply (ends_signSchnorrWith hp h hsign hstate).mono
      rintro x (⟨hfail, -⟩ | ⟨-, r, hx, hr⟩)
      · exact absurd hfail (hno entry List.mem_cons_self)
      · exact ⟨r, hx, hr, fun entry' hmem => hno entry' (List.mem_cons_of_mem _ hmem)⟩
    · rintro x ⟨r, rfl, -⟩
      exact .of_noPanic hfatal (Outcome.noPanic_ok r)

theorem safe_bip32SignEcdsa {q : TxIn × Input S} (hq : p.spends[i]? = some q) :
    Safe (Faithful p.unsignedTx p.spentOutputs) (bip32SignEcdsa secp k p i) := by
  have hsized := hp.unsignedTx.sized
  have hi : i < p.unsignedTx.input.length := (List.getElem?_eq_some_iff.1 (spends_eq_some_iff.1 hq).1).1
  have hmessage := safe_sighashEcdsa hp (safeInvariant_faithful hsized p.spentOutputs) hsized (h i) fun _ _ _ => hi
  apply hmessage.attempt.bind
  intro message
  rw [index, (spends_eq_some_iff.1 hq).2]
  refine .ofOutcome_bind (Outcome.noPanic_ok q.2) fun m _ => ?_
  refine .ofOutcome_bind (Outcome.NoPanic.foldlM (fun state entry => ?_) _ _) fun _ _ => .pure _
  unfold signEcdsaWith
  cases (getKey k (.bip32 entry.2)).or (getKey k (.pubkey ⟨true, entry.1⟩)) with
  | none => exact Outcome.noPanic_ok state
  | some sk =>
    cases message with
    | ok a => exact Outcome.noPanic_ok _
    | error e => exact Outcome.noPanic_err e

/-- Where no index is out of bounds, a turn panics exactly if the key pair of its key path spend cannot be
tweaked. -/
theorem panicsIff_signInput (secp : Signing S) (k : GetKey S E) (i : ℕ) :
    Ensures (Faithful p.unsignedTx p.spentOutputs) (signInput secp k p i)
      (Outcome.PanicsIff (KeyPathFails secp k p i)) := by
  have hlen := hp.length_inputs
  have hschnorr : KeyPathFails secp k p i → p.signingAlgorithm i = .ok .schnorr := fun hfail => hfail.1.signingAlgorithm
  unfold signInput
  cases halgorithm : p.signingAlgorithm i with
  | panic e => exact absurd halgorithm (noPanic_signingAlgorithm hlen (h i) e)
  | err e =>
    refine .ofOutcome (.of_noPanic (fun hfail => ?_) (Outcome.noPanic_err e))
    cases halgorithm.symm.trans (hschnorr hfail)
  | ok algorithm =>
    obtain ⟨ty, hty, -⟩ := Outcome.map_eq_ok_iff.1 halgorithm
    obtain ⟨q, out, hq, -⟩ := of_outputType_eq_ok hlen (h i) hty
    rw [ofOutcome_ok_bind]
    cases algorithm with
    | ecdsa =>
      refine ((safe_bip32SignEcdsa hp h hq).bind fun _ => .pure _).mono fun x hx => ?_
      refine .of_noPanic (fun hfail => ?_) hx
      cases halgorithm.symm.trans (hschnorr hfail)
    | schnorr => exact Safe.panicsIff_bind (panicsIff_bip32SignSchnorr hp h hq) fun _ => .pure _

end Turn

/-! ## The loop over the inputs -/

/-- Between two turns: nothing has changed but signatures, and none of the inputs that are left. -/
structure Pending (p : Psbt S) (l : List ℕ) (state : SignState S) : Prop where
  unsigned : state.psbt.unsigned = p.unsigned
  inputs : ∀ j ∈ l, state.psbt.inputs[j]? = p.inputs[j]?
  nodup : l.Nodup

theorem Pending.next {l : List ℕ} {state state' : SignState S} (h : Pending p (i :: l) state)
    (hsigned : SignedAt i state.psbt state'.psbt) : Pending p l state' := by
  obtain ⟨hi, hnodup⟩ := List.nodup_cons.1 h.nodup
  refine ⟨hsigned.unsigned.trans h.unsigned, fun j hj => ?_, hnodup⟩
  have hne : j ≠ i := by
    rintro rfl
    exact hi hj
  rw [hsigned.others j hne]
  exact h.inputs j (List.mem_cons_of_mem _ hj)

theorem pending_start (p : Psbt S) : Pending p (List.range p.inputs.length) { psbt := p } :=
  ⟨rfl, fun _ _ => rfl, List.nodup_range⟩

/-- A turn panics if its input does, and otherwise goes on to the next one. -/
theorem ends_signTurn {I : SighashCache → Prop} {l : List ℕ} {state : SignState S}
    {P : Outcome SignError (SigningKeys S × Psbt S) → Prop} (hstate : Pending p (i :: l) state)
    (h : Ensures I (signInput secp k state.psbt i) P) :
    Ensures I (signTurn secp k state i) fun x => (∃ e, x = .panic e ∧ P (.panic e)) ∨
      ∃ state', x = .ok state' ∧ Pending p l state' ∧ ∃ y, P y ∧ y.NoPanic := by
  have hrun := h.and (Q := fun x => ∀ r, x = .ok r → SignedAt i state.psbt r.2) fun s _ =>
    yields_signInput secp k state.psbt i s
  have hresult : Ensures I ((signInput secp k state.psbt i).attempt : Effect _ Empty _) fun x =>
      (∃ e, x = .panic e ∧ P (.panic e)) ∨
        ∃ r, x = .ok r ∧ (∀ v p', r = .ok (v, p') → SignedAt i state.psbt p') ∧ ∃ y, P y ∧ y.NoPanic := by
    apply hrun.attempt
    · rintro r ⟨hr, hsigned⟩
      refine Or.inr ⟨_, rfl, fun v p' hr' => ?_, _, hr, Outcome.noPanic_ok r⟩
      obtain rfl := Except.ok.inj hr'
      exact hsigned _ rfl
    · rintro e ⟨he, -⟩
      refine Or.inr ⟨_, rfl, fun v p' hr' => ?_, _, he, Outcome.noPanic_err e⟩
      cases hr'
    · rintro e ⟨he, -⟩
      exact Or.inl ⟨e, rfl, he⟩
  refine hresult.bind ?_ (fun e _ => e.elim) ?_
  · rintro r (⟨e, he, -⟩ | ⟨r', hr, hsigned, hy⟩)
    · cases he
    cases hr
    cases r with
    | ok r => exact .pure (Or.inr ⟨_, rfl, hstate.next (hsigned r.1 r.2 rfl), hy⟩)
    | error e => exact .pure (Or.inr ⟨_, rfl, hstate.next ⟨rfl, fun _ _ => rfl⟩, hy⟩)
  · rintro e (⟨e', he, hP⟩ | ⟨_, he, -⟩)
    · cases he
      exact Or.inl ⟨e, rfl, hP⟩
    · cases he

theorem noPanic_sign_iff_loop (secp : Signing S) (k : GetKey S E) (p : Psbt S) :
    (p.sign secp k).NoPanic ↔ ((List.range p.inputs.length).foldlM (signTurn secp k) { psbt := p }
      (SighashCache.new p.unsignedTx)).1.outcome.NoPanic := by
  unfold sign
  cases ((List.range p.inputs.length).foldlM (signTurn secp k) { psbt := p }
    (SighashCache.new p.unsignedTx)).1.outcome with
  | ok state =>
    refine iff_of_true ?_ (Outcome.noPanic_ok state)
    show (if state.errors.isEmpty then _ else _ : Outcome _ _).NoPanic
    split_ifs
    · exact Outcome.noPanic_ok _
    · exact Outcome.noPanic_err _
  | err e => exact e.elim
  | panic e => exact iff_of_false (fun h => h e rfl) fun h => h e rfl

theorem lt_of_outOfBoundsAt (h : p.OutOfBoundsAt i) : i < p.inputs.length := by
  obtain ⟨q, hq, -⟩ := h
  exact (List.getElem?_eq_some_iff.1 (spends_eq_some_iff.1 hq).2).1

/-- An index out of bounds makes `sign` panic, whatever the key source does. -/
theorem sign_of_outOfBoundsAt (h : p.OutOfBoundsAt i) : ¬(p.sign secp k).NoPanic := by
  have hloop : Ensures (fun _ => True) ((List.range p.inputs.length).foldlM (signTurn secp k) { psbt := p })
      fun x => ∃ e, x = .panic e := by
    refine Ensures.foldlM_panics (J := Pending p) (F := p.OutOfBoundsAt) (fun j l state hstate => ?_)
      ⟨i, List.mem_range.2 (lt_of_outOfBoundsAt h), h⟩ (pending_start p)
    have hinput : Ensures (fun _ => True) (signInput secp k state.psbt j)
        fun x => p.OutOfBoundsAt j → ∃ e, x = .panic e := by
      refine fun s _ => ⟨fun hbounds => ?_, trivial⟩
      rw [← outOfBoundsAt_unsigned, ← hstate.unsigned, outOfBoundsAt_unsigned] at hbounds
      rw [signInput, signingAlgorithm_of_outOfBoundsAt hbounds]
      exact ⟨_, rfl⟩
    apply (ends_signTurn hstate hinput).mono
    rintro x (⟨e, he, -⟩ | ⟨state', hx, hstate', y, hy, hnoPanic⟩)
    · exact Or.inl ⟨e, he⟩
    · refine Or.inr ⟨fun hbounds => ?_, state', hx, hstate'⟩
      obtain ⟨e, he⟩ := hy hbounds
      exact hnoPanic e he
  rw [noPanic_sign_iff_loop]
  intro hno
  obtain ⟨e, he⟩ := (hloop (SighashCache.new p.unsignedTx) trivial).1
  exact hno e he

/-- A turn sees the transaction as it was before the loop. -/
theorem Pending.panicsIff_signInput {l : List ℕ} {state : SignState S} (hstate : Pending p (i :: l) state)
    (hp : p.Limited) (h : ∀ j, ¬p.OutOfBoundsAt j) (secp : Signing S) (k : GetKey S E) :
    Ensures (Faithful p.unsignedTx p.spentOutputs) (signInput secp k state.psbt i)
      (Outcome.PanicsIff (KeyPathFails secp k p i)) := by
  have hunsigned := hstate.unsigned
  have hinput := hstate.inputs i List.mem_cons_self
  have hp' : state.psbt.Limited := by
    rw [← limited_unsigned, hunsigned, limited_unsigned]
    exact hp
  have h' : ∀ j, ¬state.psbt.OutOfBoundsAt j := by
    intro j
    rw [← outOfBoundsAt_unsigned, hunsigned, outOfBoundsAt_unsigned]
    exact h j
  have htx : state.psbt.unsignedTx = p.unsignedTx := by
    have hfield := congrArg Psbt.unsignedTx hunsigned
    exact hfield
  have houtputs : state.psbt.spentOutputs = p.spentOutputs := by
    rw [← spentOutputs_unsigned, hunsigned, spentOutputs_unsigned]
  have hfails : KeyPathFails secp k state.psbt i ↔ KeyPathFails secp k p i :=
    ⟨fun hf => hf.of_eq hunsigned.symm hinput.symm, fun hf => hf.of_eq hunsigned hinput⟩
  rw [← htx, ← houtputs, ← hfails]
  exact Psbt.panicsIff_signInput hp' h' secp k i

/-- Where no index is out of bounds, `sign` panics exactly if a key pair cannot be tweaked. -/
theorem noPanic_sign_iff_of_bounds (hp : p.Limited) (h : ∀ j, ¬p.OutOfBoundsAt j) :
    (p.sign secp k).NoPanic ↔ ∀ j, ¬KeyPathFails secp k p j := by
  have hcache := faithful_new p.unsignedTx p.spentOutputs
  rw [noPanic_sign_iff_loop]
  constructor
  · intro hno j hfail
    have hmem : j ∈ List.range p.inputs.length := by
      obtain ⟨-, m, hm, -⟩ := hfail
      exact List.mem_range.2 (List.getElem?_eq_some_iff.1 hm).1
    have hloop : Ensures (Faithful p.unsignedTx p.spentOutputs)
        ((List.range p.inputs.length).foldlM (signTurn secp k) { psbt := p }) fun x => ∃ e, x = .panic e := by
      refine Ensures.foldlM_panics (J := Pending p) (F := KeyPathFails secp k p) (fun n l state hstate => ?_)
        ⟨j, hmem, hfail⟩ (pending_start p)
      apply (ends_signTurn hstate (hstate.panicsIff_signInput hp h secp k)).mono
      rintro x (⟨e, he, -⟩ | ⟨state', hx, hstate', y, hy, hnoPanic⟩)
      · exact Or.inl ⟨e, he⟩
      · exact Or.inr ⟨hy.not_holds hnoPanic, state', hx, hstate'⟩
    obtain ⟨e, he⟩ := (hloop _ hcache).1
    exact hno e he
  · intro hno
    have hloop : Ensures (Faithful p.unsignedTx p.spentOutputs)
        ((List.range p.inputs.length).foldlM (signTurn secp k) { psbt := p })
        fun x => ∃ state, x = .ok state ∧ Pending p [] state := by
      refine Ensures.foldlM_returns (J := Pending p) (fun n l state hstate => ?_) (pending_start p)
      apply (ends_signTurn hstate (hstate.panicsIff_signInput hp h secp k)).mono
      rintro x (⟨e, -, he⟩ | ⟨state', hx, hstate', -⟩)
      · exact absurd he.holds (hno n)
      · exact ⟨state', hx, hstate'⟩
    obtain ⟨state, hstate, -⟩ := (hloop _ hcache).1
    rw [hstate]
    exact Outcome.noPanic_ok state

theorem noPanic_sign_iff (hp : p.Limited) :
    (p.sign secp k).NoPanic ↔ (∀ j, ¬p.OutOfBoundsAt j) ∧ ∀ j, ¬KeyPathFails secp k p j := by
  by_cases hbounds : ∀ j, ¬p.OutOfBoundsAt j
  · rw [noPanic_sign_iff_of_bounds hp hbounds, and_iff_right hbounds]
  · obtain ⟨j, hj⟩ := not_forall_not.1 hbounds
    exact iff_of_false (sign_of_outOfBoundsAt hj) fun hno => hbounds hno.1

/-! ## The signer -/

/-- `spend_utxo` and `sighash_ecdsa` at the index, and the loop of `sign`, return a value or an error. -/
structure NeverPanics (secp : Signing S) (k : GetKey S E) (p : Psbt S) (i : ℕ) (cache : SighashCache) : Prop where
  spendUtxo : (p.spendUtxo i).NoPanic
  sighashEcdsa : (p.sighashEcdsa i cache).1.outcome.NoPanic
  sign : (p.sign secp k).NoPanic

/-- For what is deserialised, there is no panic exactly if every output that is spent can be looked up, the
transaction of the cache has the input of a legacy message, and no key pair of a key path spend fails to be
tweaked. -/
theorem neverPanics_iff (hS : S.Lawful) {bytes : Bytes} (h : deserialize bytes = .ok p) (secp : Signing S)
    (k : GetKey S E) (i : ℕ) {cache : SighashCache} (hcache : cache.tx.Sized) :
    NeverPanics secp k p i cache ↔
      (∀ q ∈ p.spends, ¬OutOfBounds q) ∧
        (∀ q, p.spends[i]? = some q → SpendsLegacy q → i < cache.tx.input.length) ∧
        ∀ j, ¬KeyPathFails secp k p j := by
  have hp := limited_of_deserialize hS h
  have hbounds : (∀ q ∈ p.spends, ¬OutOfBounds q) ↔ ∀ j, ¬p.OutOfBoundsAt j := by
    constructor
    · rintro hno j ⟨q, hq, hfail⟩
      exact hno q (List.mem_of_getElem? hq) hfail
    · intro hno q hq hfail
      obtain ⟨j, hj⟩ := List.mem_iff_getElem?.1 hq
      exact hno j ⟨q, hj, hfail⟩
  rw [hbounds]
  constructor
  · rintro ⟨-, hecdsa, hsign⟩
    obtain ⟨hno, htweak⟩ := (noPanic_sign_iff hp).1 hsign
    exact ⟨hno, ((noPanic_sighashEcdsa_iff hp hcache).1 hecdsa).2, htweak⟩
  · rintro ⟨hno, hlegacy, htweak⟩
    exact {
      spendUtxo := (noPanic_spendUtxo_iff hp.length_inputs).2 (hno i)
      sighashEcdsa := (noPanic_sighashEcdsa_iff hp hcache).2 ⟨hno i, hlegacy⟩
      sign := (noPanic_sign_iff hp).2 ⟨hno, htweak⟩ }

end Signer

/-- Key pairs on the curve.  No key is found for the samples, so the signatures are not looked at. -/
def sampleSigning : Signing KeyFormats.curve :=
  .curve (fun _ _ => ⟨[0x30, 0x06, 0x02, 0x01, 0x01, 0x02, 0x01, 0x01], by decide⟩) fun _ _ => U8Array.replicate 64 0

/-- A source without keys. -/
def sampleKeys : GetKey KeyFormats.curve Empty := fun _ => .ok none

theorem not_keyPathFails_sampleKeys (p : Psbt KeyFormats.curve) (j : ℕ) :
    ¬KeyPathFails sampleSigning sampleKeys p j := by
  rintro ⟨-, m, -, entry, -, -, -, -, sk, hsk, -⟩
  cases hsk

/-- With a witness UTXO, nothing panics. -/
theorem neverPanics_sampleWitnessUtxo : ∃ p : Psbt KeyFormats.curve,
    deserialize (sampleBytes sampleWitnessUtxo) = .ok p ∧
      NeverPanics sampleSigning sampleKeys p 0 (SighashCache.new p.unsignedTx) := by
  obtain ⟨p, hp, hspent, -⟩ := exists_sampleWitnessUtxo
  have hlimited := limited_of_deserialize KeyFormats.curve_lawful hp
  refine ⟨p, hp, (neverPanics_iff KeyFormats.curve_lawful hp _ _ _ hlimited.unsignedTx.sized).2 ⟨?_, ?_, ?_⟩⟩
  · intro q hq
    have hmem : spentOutput q ∈ p.spends.map spentOutput := List.mem_map_of_mem hq
    rw [hspent, List.mem_singleton] at hmem
    exact not_outOfBounds_of_spentOutput hmem
  · intro q hq _
    exact (List.getElem?_eq_some_iff.1 (spends_eq_some_iff.1 hq).1).1
  · exact not_keyPathFails_sampleKeys p

/-- With a previous transaction that has no outputs, looking the output up panics. -/
theorem not_neverPanics_sampleNonWitnessUtxo : ∃ p : Psbt KeyFormats.curve,
    deserialize (sampleBytes sampleNonWitnessUtxo) = .ok p ∧ p.spendUtxo 0 = .panic .outOfBounds ∧
      ¬NeverPanics sampleSigning sampleKeys p 0 (SighashCache.new p.unsignedTx) := by
  have h : ((fun p : Psbt KeyFormats.curve => (fun _ => ()) <$> (p.spendUtxo 0).mapErr fun _ => ()) <$>
      (deserialize (sampleBytes sampleNonWitnessUtxo)).mapErr fun _ => ()) = .ok (.panic .outOfBounds) := by
    decide +kernel
  obtain ⟨p, hp, hresult⟩ := Outcome.map_eq_ok_iff.1 h
  have hpanic := Outcome.mapErr_eq_panic_iff.1 (Outcome.map_eq_panic_iff.1 hresult)
  exact ⟨p, Outcome.mapErr_eq_ok_iff.1 hp, hpanic, fun hnever => hnever.spendUtxo _ hpanic⟩

end Psbt

end RustDogecoin
