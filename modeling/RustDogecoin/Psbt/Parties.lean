import RustDogecoin.Psbt.Combine
import RustDogecoin.Psbt.SignAdds

/-!
# Several parties

A workflow is what several parties do with a transaction: each signs what it was given, one after the other or
at the same time, and what they have is combined.  If no party alone panics, and no two signatures are for the
same slot, every workflow comes to its end, and its result depends only on who has signed
(`workflows_agree`): it holds the signatures that were there and those of the parties that have signed.
-/

namespace RustDogecoin

namespace Psbt

variable {S : KeyFormats} {p q A B : Psbt S} {i : ℕ}

/-! ## Combining what was signed -/

namespace Input

variable {a b : Input S}

/-- Maps that differ in signatures only combine to such a map. -/
theorem unsigned_combine (h : a.unsigned = b.unsigned) : (a.combine b).unsigned = a.unsigned := by
  have hwitness : a.witnessUtxo = b.witnessUtxo := by
    have hfield := congrArg Input.witnessUtxo h
    exact hfield
  apply ext_get
  intro k
  have hk := congrArg (fun m => m.get k) h
  have hmerged : k.Regular → Merged (a.get k) (b.get k) ((a.combine b).get k) := merged_combine a b
  cases k with
  | partialSig | tapKeySig | tapScriptSig | sighashType => rfl
  | nonWitnessUtxo =>
    have hno : ¬a.TakesOver b := fun htake => htake.2 (hwitness ▸ htake.1)
    show (a.combine b).nonWitnessUtxo = a.nonWitnessUtxo
    rw [nonWitnessUtxo_combine, if_neg hno]
    exact (merged_combineField a.nonWitnessUtxo b.nonWitnessUtxo).eq_of_eq hk
  | _ => exact (hmerged trivial).eq_of_eq hk

/-- The signatures of both maps are there, if no two of them are for the same slot. -/
theorem sigs_combine (hslots : (a.sigs ∪ b.sigs).InjOn Sig.slot) : (a.combine b).sigs = a.sigs ∪ b.sigs := by
  ext s
  cases s with
  | partialSig key sig =>
    refine (merged_combine a b (k := .partialSig key) trivial).eq_some_iff (fun v w hv hw => ?_) sig
    have heq := hslots (Or.inl (show .partialSig key v ∈ a.sigs from hv))
      (Or.inr (show .partialSig key w ∈ b.sigs from hw)) rfl
    cases heq
    rfl
  | tapKeySig sig =>
    refine (merged_combine a b (k := .tapKeySig) trivial).eq_some_iff (fun v w hv hw => ?_) sig
    have heq := hslots (Or.inl (show .tapKeySig v ∈ a.sigs from hv)) (Or.inr (show .tapKeySig w ∈ b.sigs from hw)) rfl
    cases heq
    rfl
  | tapScriptSig key sig =>
    refine (merged_combine a b (k := .tapScriptSig key) trivial).eq_some_iff (fun v w hv hw => ?_) sig
    have heq := hslots (Or.inl (show .tapScriptSig key v ∈ a.sigs from hv))
      (Or.inr (show .tapScriptSig key w ∈ b.sigs from hw)) rfl
    cases heq
    rfl

end Input

theorem Output.combine_self (m : Output S) : m.combine m = m := by
  apply Output.ext_get
  intro k
  exact (m.merged_combine m k).eq_of_eq rfl

theorem combineZip_self {α : Type} {f : α → α → α} (hf : ∀ a, f a a = a) (l : List α) : combineZip f l l = l := by
  apply List.ext_getElem?
  intro i
  rw [getElem?_combineZip]
  cases l[i]? <;> simp [hf]

theorem mergeXpubs_self (xpubs : BTreeMap (Bip32.Xpub S.toSecp256k1) KeySource) :
    mergeXpubs xpubs.toList xpubs = (xpubs, .ok ()) := by
  have hok : (mergeXpubs xpubs.toList xpubs).2 = .ok () := by
    refine mergeXpubs_of_agree xpubs.pairwise_toList fun entry hentry source hsource => ?_
    rw [(BTreeMap.mem_toList_iff _ _ _).1 hentry] at hsource
    exact Option.some.inj hsource
  have hmerged : mergeXpubs xpubs.toList xpubs = ((mergeXpubs xpubs.toList xpubs).1, .ok ()) := Prod.ext rfl hok
  refine Prod.ext (BTreeMap.ext fun k => ?_) hok
  have hk := merged_mergeXpubs xpubs.pairwise_toList hmerged k
  rw [BTreeMap.lookup_toList] at hk
  exact hk.eq_of_eq rfl

/-- Two transactions that differ in signatures only combine to the one with the signatures of both. -/
theorem combine_signed (hunsigned : A.unsigned = B.unsigned)
    (hslots : ∀ i, (A.sigsAt i ∪ B.sigsAt i).InjOn Sig.slot) :
    ∃ C, A.combine B = (C, .ok ()) ∧ C.unsigned = A.unsigned ∧ ∀ i, C.sigsAt i = A.sigsAt i ∪ B.sigsAt i := by
  obtain ⟨htx, hversion, hxpub, hproprietary, hunknown, hmaps, houtputs⟩ : A.unsignedTx = B.unsignedTx ∧
      A.version = B.version ∧ A.xpub = B.xpub ∧ A.proprietary = B.proprietary ∧ A.unknown = B.unknown ∧
      A.inputs.map Input.unsigned = B.inputs.map Input.unsigned ∧ A.outputs = B.outputs := by
    simpa only [unsigned, mk.injEq] using hunsigned
  have hat : ∀ i : ℕ, (A.inputs[i]?).map Input.unsigned = (B.inputs[i]?).map Input.unsigned := fun i => by
    rw [← List.getElem?_map, ← List.getElem?_map, hmaps]
  have hcombine := combine_eq_ok_iff.2 ⟨htx, A.xpub, by rw [← hxpub]; exact mergeXpubs_self A.xpub, rfl⟩
  refine ⟨_, hcombine, ?_, fun i => ?_⟩
  · have hinputs : (combineZip Input.combine A.inputs B.inputs).map Input.unsigned = A.inputs.map Input.unsigned := by
      apply List.ext_getElem?
      intro i
      have hi := hat i
      rw [List.getElem?_map, List.getElem?_map, getElem?_combineZip]
      cases ha : A.inputs[i]? with
      | none => rfl
      | some a =>
        rw [ha] at hi
        obtain ⟨b, hb, hab⟩ := Option.map_eq_some_iff.1 hi.symm
        rw [hb]
        exact congrArg some (Input.unsigned_combine hab.symm)
    have hmax : max A.version B.version = A.version := by
      rw [← hversion]
      exact ite_self _
    rw [hmax, ← hproprietary, ← hunknown, ← houtputs, BTreeMap.extend_self, BTreeMap.extend_self,
      combineZip_self Output.combine_self]
    unfold unsigned
    rw [hinputs]
  · have hi := hat i
    have hslots := hslots i
    cases ha : A.inputs[i]? with
    | none =>
      have hb : B.inputs[i]? = none := by
        rw [ha] at hi
        exact Option.map_eq_none_iff.1 hi.symm
      rw [sigsAt_of_none ha, sigsAt_of_none hb, Set.union_empty]
      apply sigsAt_of_none
      rw [getElem?_combineZip, ha, Option.map_none]
    | some a =>
      rw [ha] at hi
      obtain ⟨b, hb, -⟩ := Option.map_eq_some_iff.1 hi.symm
      rw [sigsAt_of_some ha, sigsAt_of_some hb] at hslots ⊢
      rw [← Input.sigs_combine hslots]
      apply sigsAt_of_some
      rw [getElem?_combineZip, ha, hb]
      rfl

/-! ## Workflows -/

/-- What the parties do: they sign what they are given, and combine what they have. -/
inductive Workflow (ι : Type) where
  | start
  | sign (party : ι) (w : Workflow ι)
  | combine (w w' : Workflow ι)

namespace Workflow

variable {ι E : Type} (secp : Signing S) (keys : ι → GetKey S E)

/-- The parties that sign. -/
def signers : Workflow ι → Set ι
  | start => ∅
  | sign party w => insert party w.signers
  | combine w w' => w.signers ∪ w'.signers

/-- What becomes of a transaction. -/
def run (p : Psbt S) : Workflow ι → Option (Psbt S)
  | start => some p
  | sign party w => do
    let q ← w.run p
    signed secp (keys party) q
  | combine w w' => do
    let a ← w.run p
    let b ← w'.run p
    match a.combine b with
    | (c, .ok ()) => some c
    | _ => none

end Workflow

section Signer

variable {ι E : Type} {secp : Signing S} {keys : ι → GetKey S E} {k : GetKey S E}

/-- With more signatures, a signer does not panic if it did not before. -/
theorem noPanic_sign_of_subset (hp : p.Limited) (hunsigned : q.unsigned = p.unsigned)
    (hsub : ∀ i, p.sigsAt i ⊆ q.sigsAt i) (hno : (p.sign secp k).NoPanic) : (q.sign secp k).NoPanic := by
  obtain ⟨hbounds, htweak⟩ := (noPanic_sign_iff hp).1 hno
  refine (noPanic_sign_iff (hp.congr hunsigned)).2 ⟨fun j hj => hbounds j ((OutOfBoundsAt.congr hunsigned).1 hj), ?_⟩
  rintro j ⟨hsignable, m, hm, entry, hentry, hinternal, hleaves, hnone, hsk⟩
  apply htweak j
  have hmaps : p.inputs.map Input.unsigned = q.inputs.map Input.unsigned := by
    have hfield := congrArg Psbt.inputs hunsigned.symm
    exact hfield
  have hj : (p.inputs[j]?).map Input.unsigned = some m.unsigned := by
    rw [← List.getElem?_map, hmaps, List.getElem?_map, hm]
    rfl
  obtain ⟨m₀, hm₀, hm₀m⟩ := Option.map_eq_some_iff.1 hj
  have horigins : m₀.tapKeyOrigins = m.tapKeyOrigins := by
    have hfield := congrArg Input.tapKeyOrigins hm₀m
    exact hfield
  have hkey : m₀.tapInternalKey = m.tapInternalKey := by
    have hfield := congrArg Input.tapInternalKey hm₀m
    exact hfield
  have hroot : m₀.tapMerkleRoot = m.tapMerkleRoot := by
    have hfield := congrArg Input.tapMerkleRoot hm₀m
    exact hfield
  have hnone₀ : m₀.tapKeySig = none := by
    rw [Option.eq_none_iff_forall_ne_some]
    intro sig hsig
    have hmem := hsub j (show .tapKeySig sig ∈ p.sigsAt j from ⟨m₀, hm₀, hsig⟩)
    rw [sigsAt_of_some hm] at hmem
    cases hnone.symm.trans hmem
  refine ⟨?_, m₀, hm₀, entry, horigins ▸ hentry, hkey.trans hinternal, hleaves, hnone₀, hroot ▸ hsk⟩
  rw [← signable_unsigned, ← hunsigned, signable_unsigned]
  exact hsignable

/-- A workflow of parties that do not panic alone comes to its end, and adds what they sign. -/
theorem Workflow.run_adds (hp : p.Limited) (w : Workflow ι)
    (hno : ∀ party ∈ w.signers, (p.sign secp (keys party)).NoPanic)
    (hslots : ∀ i, (p.sigsAt i ∪ ⋃ party ∈ w.signers, made secp (keys party) p i).InjOn Sig.slot) :
    ∃ q, w.run secp keys p = some q ∧ q.unsigned = p.unsigned ∧
      ∀ i, q.sigsAt i = p.sigsAt i ∪ ⋃ party ∈ w.signers, made secp (keys party) p i := by
  induction w with
  | start => exact ⟨p, rfl, rfl, fun i => by simp [signers]⟩
  | sign party w ih =>
    have hsubset : ∀ i, p.sigsAt i ∪ ⋃ party ∈ w.signers, made secp (keys party) p i ⊆
        p.sigsAt i ∪ ⋃ party' ∈ (sign party w).signers, made secp (keys party') p i := fun i =>
      Set.union_subset_union_right _ (Set.biUnion_subset_biUnion_left fun _ => Set.mem_insert_of_mem _)
    obtain ⟨q, hq, hunsigned, hsigs⟩ := ih (fun party' h => hno party' (Set.mem_insert_of_mem _ h))
      fun i => (hslots i).mono (hsubset i)
    have hall : ∀ i, q.sigsAt i ∪ made secp (keys party) q i =
        p.sigsAt i ∪ ⋃ party' ∈ (sign party w).signers, made secp (keys party') p i := by
      intro i
      rw [hsigs, made_congr hunsigned, signers, Set.biUnion_insert, Set.union_assoc,
        Set.union_comm (made secp (keys party) p i)]
    have hnoSign := noPanic_sign_of_subset hp hunsigned
      (fun i => by rw [hsigs]; exact Set.subset_union_left) (hno party (Set.mem_insert _ _))
    obtain ⟨q', hq', hunsigned', hsigs'⟩ := signed_adds (hp.congr hunsigned) hnoSign
      fun i => by rw [hall]; exact hslots i
    refine ⟨q', ?_, hunsigned'.trans hunsigned, fun i => (hsigs' i).trans (hall i)⟩
    rw [run, hq]
    exact hq'
  | combine w w' ih ih' =>
    have hsubset : ∀ i, p.sigsAt i ∪ ⋃ party ∈ w.signers, made secp (keys party) p i ⊆
        p.sigsAt i ∪ ⋃ party ∈ (combine w w').signers, made secp (keys party) p i := fun i =>
      Set.union_subset_union_right _ (Set.biUnion_subset_biUnion_left fun _ => Or.inl)
    have hsubset' : ∀ i, p.sigsAt i ∪ ⋃ party ∈ w'.signers, made secp (keys party) p i ⊆
        p.sigsAt i ∪ ⋃ party ∈ (combine w w').signers, made secp (keys party) p i := fun i =>
      Set.union_subset_union_right _ (Set.biUnion_subset_biUnion_left fun _ => Or.inr)
    obtain ⟨a, ha, haunsigned, hasigs⟩ := ih (fun party h => hno party (Or.inl h)) fun i =>
      (hslots i).mono (hsubset i)
    obtain ⟨b, hb, hbunsigned, hbsigs⟩ := ih' (fun party h => hno party (Or.inr h)) fun i =>
      (hslots i).mono (hsubset' i)
    have hall : ∀ i, a.sigsAt i ∪ b.sigsAt i =
        p.sigsAt i ∪ ⋃ party ∈ (combine w w').signers, made secp (keys party) p i := by
      intro i
      rw [hasigs, hbsigs, signers, Set.biUnion_union, ← Set.union_union_distrib_left]
    obtain ⟨c, hc, hcunsigned, hcsigs⟩ := combine_signed (haunsigned.trans hbunsigned.symm) fun i => by
      rw [hall]
      exact hslots i
    refine ⟨c, ?_, hcunsigned.trans haunsigned, fun i => (hcsigs i).trans (hall i)⟩
    rw [run, ha, hb]
    show (match a.combine b with
      | (c, .ok ()) => some c
      | _ => none) = _
    rw [hc]

/-- Two workflows in which the same parties sign have the same result: it does not matter in which order they
sign, who signs what another has signed, and how what they have is combined. -/
theorem workflows_agree (hp : p.Limited) (w w' : Workflow ι) (hsigners : w.signers = w'.signers)
    (hno : ∀ party ∈ w.signers, (p.sign secp (keys party)).NoPanic)
    (hslots : ∀ i, (p.sigsAt i ∪ ⋃ party ∈ w.signers, made secp (keys party) p i).InjOn Sig.slot) :
    ∃ q, w.run secp keys p = some q ∧ w'.run secp keys p = some q ∧ q.unsigned = p.unsigned ∧
      ∀ i, q.sigsAt i = p.sigsAt i ∪ ⋃ party ∈ w.signers, made secp (keys party) p i := by
  obtain ⟨q, hq, hunsigned, hsigs⟩ := w.run_adds hp hno hslots
  obtain ⟨q', hq', hunsigned', hsigs'⟩ := w'.run_adds hp (hsigners ▸ hno) (hsigners ▸ hslots)
  obtain rfl : q' = q := by
    refine ext_sigsAt (hunsigned'.trans hunsigned.symm) fun i => ?_
    rw [hsigs', hsigs, hsigners]
  exact ⟨q', hq, hq', hunsigned, hsigs⟩

end Signer

theorem sampleScalar_lt (party : Bool) :
    0 < (if party then 2 else 1) ∧ (if party then 2 else 1) < Secp256k1.groupOrder := by
  cases party <;> decide

/-- The private keys of two parties. -/
def sampleSecret (party : Bool) : PrivateKey KeyFormats.curve.toSecp256k1 :=
  ⟨true, .main, ⟨if party then 2 else 1, sampleScalar_lt party⟩⟩

/-- An input that both parties can sign. -/
def sampleShared : Psbt KeyFormats.curve where
  unsignedTx := sampleTx
  inputs := [{
    witnessUtxo := some ⟨1000, []⟩
    bip32Derivation := ((∅ : BTreeMap _ _).insert (sampleSecret false).publicKey.inner
      (U8Array.replicate 4 0, [])).insert (sampleSecret true).publicKey.inner (U8Array.replicate 4 0, []) }]

/-- A party finds its own key. -/
def sampleParty (party : Bool) : GetKey KeyFormats.curve Empty
  | .pubkey key => .ok (if key = (sampleSecret party).publicKey then some (sampleSecret party) else none)
  | _ => .ok none

theorem limited_sampleShared : sampleShared.Limited where
  unsignedTx := {
    input := by decide
    scriptSig := by decide
    witness := by decide
    output := by decide
    scriptPubkey := by decide }
  length_inputs := rfl
  inputs := by
    intro m hm
    obtain rfl := List.mem_singleton.1 hm
    refine ⟨nofun, fun out hout => ?_, nofun, nofun, nofun, nofun⟩
    cases hout
    exact Nat.zero_le _

theorem of_sampleShared {m : Input KeyFormats.curve} (h : sampleShared.inputs[i]? = some m) :
    m.witnessUtxo ≠ none ∧ m.tapKeyOrigins.toList = [] ∧ m.sigs = ∅ := by
  obtain rfl := List.mem_singleton.1 (List.mem_of_getElem? h)
  refine ⟨nofun, rfl, Set.eq_empty_iff_forall_notMem.2 fun s hs => ?_⟩
  cases s with
  | partialSig key sig => exact absurd (Std.ExtTreeMap.getElem?_empty.symm.trans hs) nofun
  | tapKeySig sig => cases hs
  | tapScriptSig key sig => exact absurd (Std.ExtTreeMap.getElem?_empty.symm.trans hs) nofun

theorem noPanic_sampleParty (party : Bool) : (sampleShared.sign sampleSigning (sampleParty party)).NoPanic := by
  refine (noPanic_sign_iff limited_sampleShared).2 ⟨?_, ?_⟩
  · rintro j ⟨q, hq, hnone, -⟩
    exact (of_sampleShared (spends_eq_some_iff.1 hq).2).1 hnone
  · rintro j ⟨-, m, hm, entry, hentry, -⟩
    rw [(of_sampleShared hm).2.1] at hentry
    cases hentry

/-- All signatures of the parties are ECDSA signatures of the same message. -/
theorem injOn_sampleParties (T : Set Bool) (i : ℕ) :
    (sampleShared.sigsAt i ∪ ⋃ party ∈ T, made sampleSigning (sampleParty party) sampleShared i).InjOn Sig.slot := by
  have hmade : ∀ s ∈ sampleShared.sigsAt i ∪ ⋃ party ∈ T, made sampleSigning (sampleParty party) sampleShared i,
      ∃ key msg ty sig, sampleShared.ecdsaMsg i = .ok (msg, ty) ∧ s = .partialSig key ⟨sig, ty⟩ ∧
        sig = sampleSigning.signEcdsa msg ⟨1, by decide⟩ := by
    rintro s (⟨m, hm, hs⟩ | hs)
    · rw [(of_sampleShared hm).2.2] at hs
      cases hs
    · obtain ⟨party, -, m, hm, ⟨entry, -, sk, msg, ty, -, hmsg, rfl⟩ | ⟨entry, hentry, -⟩⟩ := Set.mem_iUnion₂.1 hs
      · exact ⟨_, msg, ty, _, hmsg, rfl, rfl⟩
      · rw [(of_sampleShared hm).2.1] at hentry
        cases hentry
  intro s hs s' hs' hslot
  obtain ⟨key, msg, ty, sig, hmsg, rfl, rfl⟩ := hmade s hs
  obtain ⟨key', msg', ty', sig', hmsg', rfl, rfl⟩ := hmade s' hs'
  cases hmsg.symm.trans hmsg'
  cases hslot
  rfl

/-- One party signs what the other has signed, or they sign at the same time. -/
theorem workflows_agree_sample : ∃ q,
    Workflow.run sampleSigning sampleParty sampleShared (.sign false (.sign true .start)) = some q ∧
      Workflow.run sampleSigning sampleParty sampleShared (.combine (.sign true .start) (.sign false .start)) =
        some q := by
  have hsigners : (Workflow.sign false (.sign true .start)).signers =
      (Workflow.combine (.sign true .start) (.sign false .start)).signers := by
    ext party
    simp [Workflow.signers]
  obtain ⟨q, hq, hq', -⟩ := workflows_agree limited_sampleShared _ _ hsigners
    (fun party _ => noPanic_sampleParty party) fun i => injOn_sampleParties _ i
  exact ⟨q, hq, hq'⟩

end Psbt

end RustDogecoin
