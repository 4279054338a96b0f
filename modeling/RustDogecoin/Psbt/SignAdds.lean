import RustDogecoin.Psbt.Signatures

/-!
# What signing adds

`sign` leaves behind the transaction with the signatures that the signer makes, and nothing else changed
(`signed_adds`), provided no two signatures are for the same slot.  Neither the order of the inputs nor the
state of the cache can be seen in the result, and an input for which an error is returned has no message, so
that no signature is lost.
-/

namespace RustDogecoin

open Sighash SighashCache Effect

namespace Psbt

variable {S : KeyFormats} {p q : Psbt S} {i : ℕ} {E : Type} {secp : Signing S} {k : GetKey S E}

/-! ## What a turn adds -/

section Turn

variable {F : Prop}

/-- An ECDSA signature is added if a key is found; without a message, there is an error. -/
theorem returnsOr_signEcdsaWith {message : Except SignError (Hash × EcdsaSighashType)}
    (hF : ∀ e, message = .error e → F) {state : Input S × List (PublicKey S)} {entry : S.PublicKey × KeySource}
    (hslots : (state.1.sigs ∪ ecdsaSigs secp k (.ofExcept message) entry).InjOn Sig.slot) :
    (signEcdsaWith secp k message state entry).ReturnsOr F fun r =>
      state.1.Adds (ecdsaSigs secp k (.ofExcept message) entry) r.1 := by
  unfold signEcdsaWith
  rw [← ecdsaKeyFor]
  cases hkey : ecdsaKeyFor k entry with
  | none =>
    refine .of_subset ?_
    rintro s ⟨sk, msg, ty, hsk, -⟩
    cases hkey.symm.trans hsk
  | some sk =>
    cases message with
    | error e => exact hF e rfl
    | ok a =>
      have hsigs : ecdsaSigs secp k (.ofExcept (.ok a)) entry =
          {.partialSig sk.publicKey ⟨secp.signEcdsa a.1 sk.inner, a.2⟩} := by
        ext s
        constructor
        · rintro ⟨sk', msg, ty, hsk, hmsg, rfl⟩
          obtain rfl := Option.some.inj (hkey.symm.trans hsk)
          cases hmsg
          rfl
        · rintro rfl
          exact ⟨sk, a.1, a.2, hkey, rfl, rfl⟩
      rw [hsigs, Set.union_singleton] at hslots
      rw [hsigs]
      exact ⟨rfl, (Input.sigs_insertPartialSig hslots).trans Set.union_singleton.symm⟩

theorem returnsOr_bip32SignEcdsa (halgorithm : p.signingAlgorithm i = .ok .ecdsa) {m : Input S}
    (hm : p.inputs[i]? = some m) (hslots : (m.sigs ∪ made secp k p i).InjOn Sig.slot) (list : List TxOut) :
    Ensures (Faithful p.unsignedTx list) (bip32SignEcdsa secp k p i) (Outcome.ReturnsOr (NoMessage p i)
      fun r => ∃ m', r.2 = { p with inputs := p.inputs.set i m' } ∧ m.Adds (made secp k p i) m') := by
  rw [made_of_ecdsa hm halgorithm] at hslots ⊢
  apply (ensures_attempt_sighashEcdsa p i list).bind
  · rintro message (⟨r, hr, hmessage⟩ | ⟨e, he⟩)
    swap
    · cases he
    cases hr
    rw [hmessage] at hslots ⊢
    rw [index, hm, ofOutcome_ok_bind]
    have hF : ∀ e, message = .error e → NoMessage p i := by
      rintro e rfl
      exact noMessage_of_ecdsaMsg halgorithm hmessage
    have hloop := Outcome.ReturnsOr.foldlM
      (J := fun l (state : Input S × List (PublicKey S)) =>
        Input.Progress m _ (ecdsaSigs secp k (.ofExcept message)) l state.1)
      (fun entry l state hstate =>
        (returnsOr_signEcdsaWith hF (hslots.mono hstate.subset)).mono fun r hr => hstate.next hr)
      (b := (m, [])) (Input.progress_start m (ecdsaSigs secp k (.ofExcept message)) m.bip32Derivation.toList)
    exact (Ensures.ofOutcome hloop).returnsOr_bind fun r hr => .pure ⟨r.1, rfl, hr.adds⟩
  · rintro e (⟨r, hr, -⟩ | ⟨e', he⟩)
    · cases hr
    · cases he
  · intro e _
    exact trivial

variable (hp : p.Limited) (h : ∀ j, ¬p.OutOfBoundsAt j)

include hp h

/-- The signature of the key path spend is added, unless it is there. -/
theorem returnsOr_signKeyPath (hF : ∀ leafHash e, p.taprootMsg i leafHash = .err e → F)
    {state : Input S × List S.XOnlyPublicKey} {entry : S.XOnlyPublicKey × List TapLeafHash × KeySource}
    {sk : PrivateKey S.toSecp256k1} (hslots : (state.1.sigs ∪ keyPathSigs secp p i state.1 entry sk).InjOn Sig.slot) :
    Ensures (Faithful p.unsignedTx p.spentOutputs) (signKeyPath secp p i sk entry.1 entry.2.1 state)
      (Outcome.ReturnsOr F fun r => state.1.Adds (keyPathSigs secp p i state.1 entry sk) r.1) := by
  unfold signKeyPath
  split_ifs with hcond
  · obtain ⟨hinternal, hleaves, -⟩ := hcond
    apply (ensures_sighashTaproot hp.length_inputs h i none).bind
    · intro a ha
      cases htweak : secp.tapTweak (secp.fromSecretKey sk.inner) state.1.tapMerkleRoot with
      | panic e => exact .ofOutcome trivial
      | err e => exact e.elim
      | ok keyPair =>
        have hsigs : keyPathSigs secp p i state.1 entry sk =
            {.tapKeySig ⟨secp.signSchnorr a.1 keyPair, a.2⟩} := by
          ext s
          constructor
          · rintro ⟨-, -, msg, ty, keyPair', hmsg, hkeyPair, rfl⟩
            cases ha.trans hmsg
            cases htweak.symm.trans hkeyPair
            rfl
          · rintro rfl
            exact ⟨hinternal, hleaves, a.1, a.2, keyPair, ha.symm, htweak, rfl⟩
        rw [hsigs, Set.union_singleton] at hslots
        rw [hsigs]
        exact .pure ⟨rfl, (Input.sigs_setTapKeySig hslots).trans Set.union_singleton.symm⟩
    · intro e he
      exact hF none e he.symm
    · intro e _
      exact trivial
  · refine .pure (.of_subset ?_)
    rintro s ⟨hinternal, hleaves, msg, ty, keyPair, hmsg, hkeyPair, rfl⟩
    have hsome : state.1.tapKeySig ≠ none := fun hnone =>
      hcond ⟨hinternal, hleaves, Option.isNone_iff_eq_none.2 hnone⟩
    -- the slot is taken, so it is taken by the same signature
    obtain ⟨sig, hsig⟩ := Option.ne_none_iff_exists'.1 hsome
    have hold : .tapKeySig sig ∈ state.1.sigs := hsig
    have hnew : Sig.tapKeySig ⟨secp.signSchnorr msg keyPair, ty⟩ ∈ keyPathSigs secp p i state.1 entry sk :=
      ⟨hinternal, hleaves, msg, ty, keyPair, hmsg, hkeyPair, rfl⟩
    rw [hslots (Or.inr hnew) (Or.inl hold) rfl]
    exact hold

theorem returnsOr_signLeaf (hF : ∀ leafHash e, p.taprootMsg i leafHash = .err e → F) {keyPair : secp.Keypair}
    {xonly : S.XOnlyPublicKey} {m : Input S} {lh : TapLeafHash}
    (hslots : (m.sigs ∪ leafSigs secp p i keyPair xonly lh).InjOn Sig.slot) :
    Ensures (Faithful p.unsignedTx p.spentOutputs) (signLeaf secp p i keyPair xonly m lh)
      (Outcome.ReturnsOr F (m.Adds (leafSigs secp p i keyPair xonly lh))) := by
  apply (ensures_sighashTaproot hp.length_inputs h i (some lh)).bind
  · intro a ha
    have hsigs : leafSigs secp p i keyPair xonly lh =
        {.tapScriptSig (toLex (xonly, lh)) ⟨secp.signSchnorr a.1 keyPair, a.2⟩} := by
      ext s
      constructor
      · rintro ⟨msg, ty, hmsg, rfl⟩
        cases ha.trans hmsg
        rfl
      · rintro rfl
        exact ⟨a.1, a.2, ha.symm, rfl⟩
    rw [hsigs, Set.union_singleton] at hslots
    rw [hsigs]
    exact .pure ⟨rfl, (Input.sigs_insertTapScriptSig hslots).trans Set.union_singleton.symm⟩
  · intro e he
    exact hF _ e he.symm
  · intro e _
    exact trivial

/-- The signatures of the script path spends are added, unless they are there. -/
theorem returnsOr_signScriptPath (hF : ∀ leafHash e, p.taprootMsg i leafHash = .err e → F)
    {state : Input S × List S.XOnlyPublicKey} {entry : S.XOnlyPublicKey × List TapLeafHash × KeySource}
    (hentry : state.1.tapKeyOrigins[entry.1]? = some entry.2) {sk : PrivateKey S.toSecp256k1}
    (hslots : (state.1.sigs ∪ scriptPathSigs secp p i entry sk).InjOn Sig.slot) :
    Ensures (Faithful p.unsignedTx p.spentOutputs) (signScriptPath secp p i sk entry.1 state)
      (Outcome.ReturnsOr F fun r => state.1.Adds (scriptPathSigs secp p i entry sk) r.1) := by
  unfold signScriptPath
  rw [hentry]
  dsimp only
  set leaves := entry.2.1.filter fun lh => !state.1.tapScriptSigs.contains (toLex (entry.1, lh)) with hleaves
  set new := leafSigs secp p i (secp.fromSecretKey sk.inner) entry.1 with hnew
  -- the leaves that are left out have their signatures
  have hall : state.1.sigs ∪ {s | ∃ lh ∈ leaves, s ∈ new lh} = state.1.sigs ∪ scriptPathSigs secp p i entry sk := by
    apply Set.Subset.antisymm
    · apply Set.union_subset_union_right
      rintro s ⟨lh, hlh, hs⟩
      exact ⟨lh, List.mem_of_mem_filter hlh, hs⟩
    · refine Set.union_subset Set.subset_union_left ?_
      rintro s ⟨lh, hlh, hs⟩
      by_cases hmem : lh ∈ leaves
      · exact Or.inr ⟨lh, hmem, hs⟩
      · left
        have hcontains : state.1.tapScriptSigs.contains (toLex (entry.1, lh)) = true := by
          simpa [hleaves, hlh] using hmem
        rw [Std.ExtTreeMap.contains_eq_isSome_getElem?] at hcontains
        obtain ⟨sig, hsig⟩ := Option.isSome_iff_exists.1 hcontains
        have hold : .tapScriptSig (toLex (entry.1, lh)) sig ∈ state.1.sigs := hsig
        have hslot : s.slot = .tapScriptSig (toLex (entry.1, lh)) := by
          obtain ⟨msg, ty, -, rfl⟩ := hs
          rfl
        rw [hslots (Or.inr ⟨lh, hlh, hs⟩) (Or.inl hold) hslot]
        exact hold
  have hloop : Ensures (Faithful p.unsignedTx p.spentOutputs)
      (leaves.foldlM (signLeaf secp p i (secp.fromSecretKey sk.inner) entry.1) state.1)
      (Outcome.ReturnsOr F (Input.Progress state.1 (scriptPathSigs secp p i entry sk) new [])) := by
    refine Ensures.returnsOr_foldlM
      (J := Input.Progress state.1 (scriptPathSigs secp p i entry sk) new) (fun lh l m hm => ?_) ⟨rfl, hall⟩
    refine (returnsOr_signLeaf hp h hF (hslots.mono hm.subset)).mono fun x hx => ?_
    exact hx.mono fun m' hm' => hm.next hm'
  split_ifs with hempty
  · exact hloop.returnsOr_bind fun m hm => .pure hm.adds
  · refine .pure (.of_subset ?_)
    rw [not_not] at hempty
    rw [hempty] at hall
    have hnone : {s | ∃ lh ∈ ([] : List TapLeafHash), s ∈ new lh} = ∅ := by simp
    rw [hnone, Set.union_empty] at hall
    exact Set.union_eq_left.1 hall.symm

/-- The signatures for an entry of `tap_key_origins` are added. -/
theorem returnsOr_signSchnorrWith (hF : ∀ leafHash e, p.taprootMsg i leafHash = .err e → F)
    {state : Input S × List S.XOnlyPublicKey} {entry : S.XOnlyPublicKey × List TapLeafHash × KeySource}
    (hentry : state.1.tapKeyOrigins[entry.1]? = some entry.2)
    (hslots : (state.1.sigs ∪ schnorrSigs secp k p i state.1 entry).InjOn Sig.slot) :
    Ensures (Faithful p.unsignedTx p.spentOutputs) (signSchnorrWith secp k p i state entry)
      (Outcome.ReturnsOr F fun r => state.1.Adds (schnorrSigs secp k p i state.1 entry) r.1) := by
  unfold signSchnorrWith
  rw [← keyFor]
  cases hkey : keyFor k entry with
  | none =>
    refine .pure (.of_subset ?_)
    rintro s ⟨sk, hsk, -⟩
    cases hkey.symm.trans hsk
  | some sk =>
    have hsigs : schnorrSigs secp k p i state.1 entry =
        keyPathSigs secp p i state.1 entry sk ∪ scriptPathSigs secp p i entry sk := by
      ext s
      simp [schnorrSigs, hkey]
    rw [hsigs] at hslots ⊢
    have hkeyPath := hslots.mono (Set.union_subset_union_right state.1.sigs
      (Set.subset_union_left (s := keyPathSigs secp p i state.1 entry sk) (t := scriptPathSigs secp p i entry sk)))
    refine (returnsOr_signKeyPath hp h hF hkeyPath).returnsOr_bind fun r hr => ?_
    have hentry' : r.1.tapKeyOrigins[entry.1]? = some entry.2 := by
      have horigins : r.1.tapKeyOrigins = state.1.tapKeyOrigins := by
        have hfield := congrArg Input.tapKeyOrigins hr.unsigned
        exact hfield
      rw [horigins, hentry]
    have hscript : (r.1.sigs ∪ scriptPathSigs secp p i entry sk).InjOn Sig.slot := by
      rw [hr.sigs, Set.union_assoc]
      exact hslots
    refine (returnsOr_signScriptPath hp h hF hentry' hscript).mono fun x hx => ?_
    exact hx.mono fun r' hr' => hr.trans hr'

theorem returnsOr_bip32SignSchnorr (halgorithm : p.signingAlgorithm i = .ok .schnorr) {m : Input S}
    (hm : p.inputs[i]? = some m) (hslots : (m.sigs ∪ made secp k p i).InjOn Sig.slot) :
    Ensures (Faithful p.unsignedTx p.spentOutputs) (bip32SignSchnorr secp k p i)
      (Outcome.ReturnsOr (NoMessage p i) fun r =>
        ∃ m', r.2 = { p with inputs := p.inputs.set i m' } ∧ m.Adds (made secp k p i) m') := by
  rw [made_of_schnorr hm halgorithm] at hslots ⊢
  unfold bip32SignSchnorr
  obtain ⟨txin, htxin⟩ : ∃ txin, p.unsignedTx.input[i]? = some txin := by
    have hi := (List.getElem?_eq_some_iff.1 hm).1
    exact ⟨_, List.getElem?_eq_getElem (hp.length_inputs ▸ hi)⟩
  have hq : p.spends[i]? = some (txin, m) := spends_eq_some_iff.2 ⟨htxin, hm⟩
  rw [checkedInput_of_some hq, ofOutcome_ok_bind]
  have hF : ∀ leafHash e, p.taprootMsg i leafHash = .err e → NoMessage p i := fun leafHash e =>
    noMessage_of_taprootMsg hp h halgorithm
  set M : Set (Sig S) := {s | ∃ entry ∈ m.tapKeyOrigins.toList, s ∈ schnorrSigs secp k p i m entry}
  have hloop := Ensures.returnsOr_foldlM (I := Faithful p.unsignedTx p.spentOutputs) (F := NoMessage p i)
    (f := signSchnorrWith secp k p i)
    (J := fun l (state : Input S × List S.XOnlyPublicKey) =>
      Input.Progress m M (schnorrSigs secp k p i m) l state.1 ∧ ∀ entry ∈ l, entry ∈ m.tapKeyOrigins.toList)
    (fun entry l state hstate => by
      obtain ⟨hprogress, hmem⟩ := hstate
      have hentry : state.1.tapKeyOrigins[entry.1]? = some entry.2 := by
        have hfield := congrArg Input.tapKeyOrigins hprogress.unsigned
        change state.1.tapKeyOrigins = m.tapKeyOrigins at hfield
        rw [hfield]
        exact (BTreeMap.mem_toList_iff _ _ _).1 (hmem entry List.mem_cons_self)
      have hsigs : schnorrSigs secp k p i state.1 entry = schnorrSigs secp k p i m entry := by
        simp only [schnorrSigs, keyPathSigs_congr hprogress.unsigned]
      have hadds := returnsOr_signSchnorrWith (k := k) hp h hF hentry
        (hslots.mono (by rw [hsigs]; exact hprogress.subset))
      rw [hsigs] at hadds
      refine hadds.mono fun x hx => hx.mono fun r hr => ⟨hprogress.next hr, fun e he => ?_⟩
      exact hmem e (List.mem_cons_of_mem _ he))
    (b := (m, [])) ⟨Input.progress_start m (schnorrSigs secp k p i m) m.tapKeyOrigins.toList, fun _ he => he⟩
  exact hloop.returnsOr_bind fun r hr => .pure ⟨r.1, rfl, hr.1.adds⟩

/-- What `sign` does with an input: the signatures that are made are added, or there is an error because there
is no message. -/
theorem returnsOr_signInput {m : Input S} (hm : p.inputs[i]? = some m)
    (hslots : (m.sigs ∪ made secp k p i).InjOn Sig.slot) :
    Ensures (Faithful p.unsignedTx p.spentOutputs) (signInput secp k p i)
      (Outcome.ReturnsOr (NoMessage p i) fun r =>
        ∃ m', r.2 = { p with inputs := p.inputs.set i m' } ∧ m.Adds (made secp k p i) m') := by
  unfold signInput
  cases halgorithm : p.signingAlgorithm i with
  | panic e => exact .ofOutcome trivial
  | err e =>
    refine .ofOutcome (noMessage_of_signingAlgorithm fun algorithm hok => ?_)
    cases halgorithm.symm.trans hok
  | ok algorithm =>
    rw [ofOutcome_ok_bind]
    cases algorithm with
    | ecdsa => exact (returnsOr_bip32SignEcdsa halgorithm hm hslots _).returnsOr_bind fun r hr => .pure hr
    | schnorr => exact (returnsOr_bip32SignSchnorr hp h halgorithm hm hslots).returnsOr_bind fun r hr => .pure hr

end Turn

/-! ## The loop over the inputs -/

/-- Between two turns: the signatures of the inputs that are done have been added. -/
structure Adding (M : ℕ → Set (Sig S)) (p : Psbt S) (l : List ℕ) (state : SignState S) : Prop where
  pending : Pending p l state
  lt : ∀ j ∈ l, j < p.inputs.length
  sigs : ∀ j, j ∉ l → state.psbt.sigsAt j = p.sigsAt j ∪ M j

theorem adding_start (p : Psbt S) :
    Adding (made secp k p) p (List.range p.inputs.length) { psbt := p } where
  pending := pending_start p
  lt _ hj := List.mem_range.1 hj
  sigs j hj := by
    have hnone : p.inputs[j]? = none := by simpa using hj
    have hmade : made secp k p j = ∅ := by
      ext s
      simp [made, hnone]
    rw [hmade, Set.union_empty]

theorem Adding.next {M : ℕ → Set (Sig S)} {l : List ℕ} {state state' : SignState S}
    (h : Adding M p (i :: l) state) (hsigned : SignedAt i state.psbt state'.psbt)
    (hadds : state'.psbt.sigsAt i = state.psbt.sigsAt i ∪ M i) : Adding M p l state' where
  pending := h.pending.next hsigned
  lt j hj := h.lt j (List.mem_cons_of_mem _ hj)
  sigs j hj := by
    by_cases hij : j = i
    · subst hij
      rw [hadds, sigsAt_congr (h.pending.inputs j List.mem_cons_self)]
    · rw [sigsAt_congr (hsigned.others j hij)]
      exact h.sigs j (by simp [hij, hj])

theorem Limited.congr (hp : p.Limited) (h : q.unsigned = p.unsigned) : q.Limited := by
  rw [← limited_unsigned, h, limited_unsigned]
  exact hp

theorem OutOfBoundsAt.congr (h : q.unsigned = p.unsigned) : q.OutOfBoundsAt i ↔ p.OutOfBoundsAt i := by
  rw [← outOfBoundsAt_unsigned, h, outOfBoundsAt_unsigned]

variable (hp : p.Limited) (h : ∀ j, ¬p.OutOfBoundsAt j)

include hp h

/-- A turn adds the signatures of its input. -/
theorem returnsOr_signTurn {l : List ℕ} {state : SignState S} (hstate : Adding (made secp k p) p (i :: l) state)
    (hslots : (p.sigsAt i ∪ made secp k p i).InjOn Sig.slot) :
    Ensures (Faithful p.unsignedTx p.spentOutputs) (signTurn secp k state i)
      (Outcome.ReturnsOr False (Adding (made secp k p) p l)) := by
  have hunsigned := hstate.pending.unsigned
  have hinput := hstate.pending.inputs i List.mem_cons_self
  have htx : state.psbt.unsignedTx = p.unsignedTx := by
    have hfield := congrArg Psbt.unsignedTx hunsigned
    exact hfield
  have houtputs : state.psbt.spentOutputs = p.spentOutputs := by
    rw [← spentOutputs_unsigned, hunsigned, spentOutputs_unsigned]
  obtain ⟨m, hm⟩ : ∃ m, state.psbt.inputs[i]? = some m :=
    ⟨_, hinput.trans (List.getElem?_eq_getElem (hstate.lt i List.mem_cons_self))⟩
  rw [← sigsAt_congr hinput, sigsAt_of_some hm, ← made_congr hunsigned] at hslots
  have hrun := returnsOr_signInput (hp.congr hunsigned) (fun j hj => h j ((OutOfBoundsAt.congr hunsigned).1 hj))
    hm hslots
  rw [← htx, ← houtputs]
  have hattempt : Ensures (Faithful state.psbt.unsignedTx state.psbt.spentOutputs)
      ((signInput secp k state.psbt i).attempt : Effect _ Empty _) (Outcome.ReturnsOr False fun r =>
        (∃ v m', r = .ok (v, { state.psbt with inputs := state.psbt.inputs.set i m' }) ∧
          m.Adds (made secp k p i) m') ∨ (∃ e, r = .error e) ∧ made secp k p i = ∅) := by
    apply hrun.attempt
    · rintro ⟨v, q⟩ ⟨m', hq, hadds⟩
      rw [made_congr hunsigned] at hadds
      obtain rfl := hq
      exact Or.inl ⟨v, m', rfl, hadds⟩
    · intro e hno
      refine Or.inr ⟨⟨e, rfl⟩, ?_⟩
      rw [← made_congr hunsigned]
      exact NoMessage.made hno
    · intro e _
      exact trivial
  refine hattempt.returnsOr_bind ?_
  rintro r (⟨v, m', rfl, hadds⟩ | ⟨⟨e, rfl⟩, hnone⟩)
  · refine .pure (hstate.next (signedAt_set hm hadds.unsigned) ?_)
    have hset : (state.psbt.inputs.set i m')[i]? = some m' := by
      simp [(List.getElem?_eq_some_iff.1 hm).1]
    rw [sigsAt_of_some hm, ← hadds.sigs]
    exact sigsAt_of_some hset
  · refine .pure (hstate.next ⟨rfl, fun _ _ => rfl⟩ ?_)
    rw [hnone, Set.union_empty]

omit hp h in
/-- The transaction that `sign` leaves behind, with the signatures of the inputs without an error. -/
def signed (secp : Signing S) (k : GetKey S E) (p : Psbt S) : Option (Psbt S) :=
  match p.sign secp k with
  | .ok r => some r.1
  | .err e => some e.1
  | .panic _ => none

omit h in
/-- If `sign` does not panic, it adds the signatures that the signer makes, and changes nothing else. -/
theorem signed_adds (hno : (p.sign secp k).NoPanic)
    (hslots : ∀ i, (p.sigsAt i ∪ made secp k p i).InjOn Sig.slot) :
    ∃ q, signed secp k p = some q ∧ q.unsigned = p.unsigned ∧ ∀ i, q.sigsAt i = p.sigsAt i ∪ made secp k p i := by
  have hbounds := ((noPanic_sign_iff hp).1 hno).1
  have hloop : Ensures (Faithful p.unsignedTx p.spentOutputs)
      ((List.range p.inputs.length).foldlM (signTurn secp k) { psbt := p })
      (Outcome.ReturnsOr False (Adding (made secp k p) p [])) :=
    Ensures.returnsOr_foldlM (J := Adding (made secp k p) p)
      (fun i l state hstate => returnsOr_signTurn hp hbounds hstate (hslots i)) (adding_start p)
  have hout := (hloop (SighashCache.new p.unsignedTx) (faithful_new _ _)).1
  have hnoLoop := (noPanic_sign_iff_loop secp k p).1 hno
  cases hrun : ((List.range p.inputs.length).foldlM (signTurn secp k) { psbt := p }
    (SighashCache.new p.unsignedTx)).1.outcome with
  | panic e => exact absurd hrun (hnoLoop e)
  | err e => exact e.elim
  | ok state =>
    rw [hrun] at hout
    refine ⟨state.psbt, ?_, hout.pending.unsigned, fun i => hout.sigs i (by simp)⟩
    have hsign : p.sign secp k = if state.errors.isEmpty then .ok (state.psbt, state.used)
        else .err (state.psbt, state.used, state.errors) := by
      rw [sign, hrun]
      rfl
    rw [signed, hsign]
    split_ifs <;> rfl

end Psbt

end RustDogecoin
