import RustDogecoin.Psbt.GetKey
import RustDogecoin.Psbt.Parties

/-!
# Wallets of several signers

A wallet whose addresses belong to several cosigners.  Each has a master key, and an account of which the
wallet knows the public key only.  The wallet puts the public keys of an address into the input maps of a
transaction, with the paths from the master keys; the cosigners sign with their master keys, which find the
private keys by the paths.

Whatever the order in which the cosigners sign and combine, the result holds the signatures of those that have
signed, each at the public key that the wallet derived, and no others (`cosigners_sign`).
-/

namespace RustDogecoin

open Bip32 Sighash SighashCache

variable {S : KeyFormats}

/-- Public keys are derived along normal child numbers only. -/
theorem Bip32.isNormal_of_derivePub {T : Secp256k1} {pk pk' : Xpub T} {path : List ChildNumber}
    (h : pk.derivePub path = .ok pk') : ∀ i ∈ path, i.isNormal = true := by
  induction path generalizing pk with
  | nil => exact nofun
  | cons i path ih =>
    rw [Xpub.derivePub, List.foldlM_cons] at h
    obtain ⟨child, hchild, hrest⟩ := Outcome.bind_eq_ok_iff.1 h
    refine List.forall_mem_cons.2 ⟨?_, ih hrest⟩
    cases i with
    | normal n => rfl
    | hardened n => cases hchild

namespace Psbt

variable (S) in
/-- A master key and one of its accounts. -/
structure Cosigner where
  master : Xpriv S.toSecp256k1
  path : List ChildNumber
  accountKey : Xpriv S.toSecp256k1
  derived : master.derivePriv path = .ok accountKey

namespace Cosigner

/-- What the wallet knows of the account. -/
def account (c : Cosigner S) : Xpub S.toSecp256k1 := .fromPriv c.accountKey

/-- The entry of `bip32_derivation` for an address. -/
def entry (c : Cosigner S) (address : List ChildNumber) :
    Outcome (Bip32.Error S.toSecp256k1) (S.PublicKey × KeySource) := do
  let pk ← c.account.derivePub address
  return (pk.publicKey, (c.master.fingerprint, c.path ++ address))

/-- The public key that the wallet derives is that of the private key that the master key finds. -/
theorem of_entry (hS : S.toSecp256k1.Homomorphic) {c : Cosigner S} {address : List ChildNumber}
    (hreg : PathRegular c.accountKey address) {e : S.PublicKey × KeySource} (he : c.entry address = .ok e) :
    ∃ sk, c.master.derivePriv (c.path ++ address) = .ok sk ∧
      c.account.derivePub address = .ok (.fromPriv sk) ∧
      e = (S.fromSecretKey sk.privateKey, (c.master.fingerprint, c.path ++ address)) := by
  obtain ⟨pk, hpk, hret⟩ := Outcome.bind_eq_ok_iff.1 he
  obtain rfl := Outcome.ok.inj hret
  rcases derivePub_fromPriv_of_regular hS (isNormal_of_derivePub hpk) hreg with ⟨-, herr⟩ | ⟨sk, hpriv, hpub⟩
  · cases herr.symm.trans hpk
  · obtain rfl := Outcome.ok.inj (hpub.symm.trans hpk)
    refine ⟨sk, ?_, hpk, rfl⟩
    rw [derivePriv_append, c.derived, Outcome.ok_bind]
    exact hpriv

/-- The entry for a child of the account whose tweaked key is known. -/
theorem entry_of_child (hS : S.toSecp256k1.Homomorphic) (c : Cosigner S) {i : ChildNumber} (hi : i.isNormal = true)
    {tweak tweaked : S.SecretKey}
    (htweak : S.secretKeyFromSlice (leftHalf (c.accountKey.childHmac i)) = .ok tweak)
    (hadd : S.addTweak tweak c.accountKey.privateKey = .ok tweaked) (hdepth : c.accountKey.depth.toNat + 1 < 256) :
    (∃ sk, c.accountKey.derivePriv [i] = .ok sk) ∧
      c.entry [i] = .ok (S.fromSecretKey tweaked, (c.master.fingerprint, c.path ++ [i])) := by
  have hderive := Xpriv.derivePriv_singleton c.accountKey i
  obtain ⟨sk, hchild, hkey⟩ : ∃ sk, c.accountKey.derivePriv [i] = .ok sk ∧ sk.privateKey = tweaked :=
    ⟨_, hderive.trans (Xpriv.ckdPriv_of htweak hadd hdepth), rfl⟩
  subst hkey
  have hreg : PathRegular c.accountKey [i] := ⟨⟨tweak, _, htweak, hadd⟩, fun _ _ => trivial⟩
  rcases derivePub_fromPriv_of_regular hS (List.forall_mem_singleton.2 hi) hreg with ⟨herr, -⟩ | ⟨sk', hpriv, hpub⟩
  · cases herr.symm.trans hchild
  · cases hpriv.symm.trans hchild
    refine ⟨⟨_, hchild⟩, ?_⟩
    rw [entry, account, hpub]
    rfl

/-- The signature of a cosigner for an input: with the private key that its master key finds, at the public key
that the wallet has derived. -/
def sigs (c : Cosigner S) (secp : Signing S) (p : Psbt S) (i : ℕ) (address : List ChildNumber) : Set (Sig S) :=
  {s | ∃ sk pk msg ty, c.master.derivePriv (c.path ++ address) = .ok sk ∧ c.account.derivePub address = .ok pk ∧
    pk.publicKey = S.fromSecretKey sk.privateKey ∧ p.ecdsaMsg i = .ok (msg, ty) ∧
    s = .partialSig ⟨true, pk.publicKey⟩ ⟨secp.signEcdsa msg sk.privateKey, ty⟩}

end Cosigner

section Wallet

variable {ι : Type} {cosigners : ι → Cosigner S} {address : ℕ → List ChildNumber} {p : Psbt S} {i : ℕ}

/-- Sources of different cosigners are not taken for each other. -/
structure Distinguished (cosigners : ι → Cosigner S) : Prop where
  fingerprint : ∀ c c', (cosigners c).master.fingerprint = (cosigners c').master.fingerprint → c = c'
  parentFingerprint : ∀ c c', (cosigners c).master.parentFingerprint ≠ (cosigners c').master.fingerprint

/-- The wallet has put the keys of all cosigners into the input maps, and no others. -/
structure Updated (cosigners : ι → Cosigner S) (address : ℕ → List ChildNumber) (p : Psbt S) : Prop where
  mem_iff : ∀ i m, p.inputs[i]? = some m → ∀ e,
    e ∈ m.bip32Derivation.toList ↔ ∃ c, (cosigners c).entry (address i) = .ok e
  tapKeyOrigins : ∀ m ∈ p.inputs, m.tapKeyOrigins.toList = []
  regular : ∀ i < p.inputs.length, ∀ c, PathRegular (cosigners c).accountKey (address i)

variable {keys : ι → GetKey S (GetKeyError S)} (hS : S.toSecp256k1.Homomorphic) (hd : Distinguished cosigners)
  (hp : Updated cosigners address p) (hkeys : ∀ c, Answers (cosigners c).master.getKey (keys c) p)

include hS hd hp hkeys

/-- A cosigner finds the private key for its own entry, and none for those of the others. -/
theorem ecdsaKeyFor_eq_some_iff {m : Input S} (hm : p.inputs[i]? = some m) {c c' : ι} {e : S.PublicKey × KeySource}
    (he : (cosigners c').entry (address i) = .ok e) {key : PrivateKey S.toSecp256k1} :
    ecdsaKeyFor (keys c) e = some key ↔ c' = c ∧ ∃ sk,
      (cosigners c).master.derivePriv ((cosigners c).path ++ address i) = .ok sk ∧ key = sk.toPriv := by
  have hentry : e ∈ m.bip32Derivation.toList := (hp.mem_iff i m hm e).2 ⟨c', he⟩
  have hbip32 : .bip32 e.2 ∈ p.requests :=
    ⟨m, List.mem_of_getElem? hm, Or.inl ⟨e, hentry, Or.inl rfl⟩⟩
  have hpubkey : .pubkey ⟨true, e.1⟩ ∈ p.requests :=
    ⟨m, List.mem_of_getElem? hm, Or.inl ⟨e, hentry, Or.inr rfl⟩⟩
  have hnone : getKey (keys c) (.pubkey ⟨true, e.1⟩) = none := by
    rw [Option.eq_none_iff_forall_ne_some]
    intro sk hsk
    cases ((hkeys c).getKey_eq_some_iff hpubkey).1 hsk
  obtain ⟨sk, hsk, -, rfl⟩ := Cosigner.of_entry hS
    (hp.regular i (List.getElem?_eq_some_iff.1 hm).1 c') he
  rw [ecdsaKeyFor, hnone, Option.or_none, (hkeys c).getKey_eq_some_iff hbip32]
  by_cases hc : c' = c
  · subst hc
    rw [Xpriv.getKey_self, hsk]
    constructor
    · intro hkey
      cases hkey
      exact ⟨rfl, sk, rfl, rfl⟩
    · rintro ⟨-, sk', hsk', rfl⟩
      cases hsk'
      rfl
  · rw [Xpriv.getKey_of_ne (fun hfp => hc (hd.fingerprint c' c hfp.symm)) (hd.parentFingerprint c c')]
    refine iff_of_false (fun hkey => ?_) fun hand => hc hand.1
    cases hkey

/-- The signatures that a cosigner makes. -/
theorem made_cosigner (secp : Signing S) {m : Input S} (hm : p.inputs[i]? = some m) (c : ι) :
    made secp (keys c) p i = (cosigners c).sigs secp p i (address i) := by
  ext s
  constructor
  · rintro ⟨m', hm', ⟨e, he, key, msg, ty, hkey, hmsg, rfl⟩ | ⟨entry, hentry, -⟩⟩
    · obtain ⟨c', he⟩ := (hp.mem_iff i m' hm' e).1 he
      obtain ⟨rfl, sk, hsk, rfl⟩ := (ecdsaKeyFor_eq_some_iff hS hd hp hkeys hm he).1 hkey
      obtain ⟨sk', hsk', hpub, -⟩ := Cosigner.of_entry hS
        (hp.regular i (List.getElem?_eq_some_iff.1 hm).1 c') he
      obtain rfl := Outcome.ok.inj (hsk'.symm.trans hsk)
      exact ⟨sk', _, msg, ty, hsk, hpub, rfl, hmsg, rfl⟩
    · rw [hp.tapKeyOrigins m' (List.mem_of_getElem? hm')] at hentry
      cases hentry
  · rintro ⟨sk, pk, msg, ty, hsk, hpk, hkey, hmsg, rfl⟩
    have he : (cosigners c).entry (address i) =
        .ok (pk.publicKey, ((cosigners c).master.fingerprint, (cosigners c).path ++ address i)) := by
      rw [Cosigner.entry, hpk]
      rfl
    refine ⟨m, hm, Or.inl ⟨_, (hp.mem_iff i m hm _).2 ⟨c, he⟩, sk.toPriv, msg, ty, ?_, hmsg, ?_⟩⟩
    · exact (ecdsaKeyFor_eq_some_iff hS hd hp hkeys hm he).2 ⟨rfl, sk, hsk, rfl⟩
    · rw [hkey]
      rfl

/-- No two cosigners sign for the same key. -/
theorem injOn_cosigners (secp : Signing S) (T : Set ι) (i : ℕ) :
    (⋃ c ∈ T, made secp (keys c) p i).InjOn Sig.slot := by
  intro s hs s' hs' hslot
  obtain ⟨c, -, hs⟩ := Set.mem_iUnion₂.1 hs
  obtain ⟨c', -, hs'⟩ := Set.mem_iUnion₂.1 hs'
  obtain ⟨m, hm, -⟩ := id hs
  rw [made_cosigner hS hd hp hkeys secp hm] at hs hs'
  obtain ⟨sk, pk, msg, ty, hsk, hpk, -, hmsg, rfl⟩ := hs
  obtain ⟨sk', pk', msg', ty', hsk', hpk', -, hmsg', rfl⟩ := hs'
  have hkey : pk.publicKey = pk'.publicKey := congrArg PublicKey.inner (Slot.partialSig.inj hslot)
  -- the map has one source for the key
  have hentry := (hp.mem_iff i m hm (pk.publicKey, _)).2 ⟨c, by rw [Cosigner.entry, hpk]; rfl⟩
  have hentry' := (hp.mem_iff i m hm (pk'.publicKey, _)).2 ⟨c', by rw [Cosigner.entry, hpk']; rfl⟩
  rw [BTreeMap.mem_toList_iff] at hentry hentry'
  rw [← hkey, hentry] at hentry'
  obtain rfl := hd.fingerprint c c' (congrArg Prod.fst (Option.some.inj hentry'))
  cases hsk.symm.trans hsk'
  cases hpk.symm.trans hpk'
  cases hmsg.symm.trans hmsg'
  rfl

/-- Every workflow of cosigners comes to its end, and gives the transaction of the wallet with the signatures of
those that sign, each at the public key that the wallet has derived for it, and no others. -/
theorem cosigners_sign (hlimited : p.Limited) (hbounds : ∀ j, ¬p.OutOfBoundsAt j) (hnone : ∀ j, p.sigsAt j = ∅)
    (secp : Signing S) (w : Workflow ι) :
    ∃ q, w.run secp keys p = some q ∧ q.unsigned = p.unsigned ∧
      ∀ i < p.inputs.length, q.sigsAt i = ⋃ c ∈ w.signers, (cosigners c).sigs secp p i (address i) := by
  have hno : ∀ c ∈ w.signers, (p.sign secp (keys c)).NoPanic := by
    intro c _
    refine (noPanic_sign_iff hlimited).2 ⟨hbounds, ?_⟩
    rintro j ⟨-, m, hm, entry, hentry, -⟩
    rw [hp.tapKeyOrigins m (List.mem_of_getElem? hm)] at hentry
    cases hentry
  obtain ⟨q, hq, hunsigned, hsigs⟩ := w.run_adds hlimited hno fun i => by
    rw [hnone, Set.empty_union]
    exact injOn_cosigners hS hd hp hkeys secp _ i
  refine ⟨q, hq, hunsigned, fun i hi => ?_⟩
  rw [hsigs, hnone, Set.empty_union]
  exact Set.iUnion₂_congr fun c _ => made_cosigner hS hd hp hkeys secp (List.getElem?_eq_getElem hi) c

end Wallet

/-! ## A wallet of two -/

def sampleCosigner (party : Bool) : Cosigner logFormats where
  master := sampleMaster party
  path := []
  accountKey := sampleMaster party
  derived := rfl

theorem entry_sampleCosigner (party : Bool) :
    ChildRegular (sampleMaster party) (.normal 7) ∧
      (∃ sk, (sampleMaster party).derivePriv [.normal 7] = .ok sk) ∧
      (sampleCosigner party).entry [.normal 7] =
        .ok (logFormats.fromSecretKey (sampleChildKey party), sampleKeySource party) := by
  have hhom : logFormats.toSecp256k1.Homomorphic := sampleCurve_homomorphic
  obtain ⟨tweak, -, htweak, hadd, -⟩ := exists_ckdPriv_sampleMaster party
  have hdepth : (sampleCosigner party).accountKey.depth.toNat + 1 < 256 := show (0 : UInt8).toNat + 1 < 256 by decide
  obtain ⟨hpriv, hentry⟩ := Cosigner.entry_of_child hhom (sampleCosigner party) rfl htweak hadd hdepth
  exact ⟨⟨tweak, _, htweak, hadd⟩, hpriv, hentry⟩

theorem distinguished_sampleCosigner : Distinguished sampleCosigner := by
  obtain ⟨hne, hparent⟩ := fingerprint_sampleMaster
  refine ⟨fun party party' h => ?_, fun _ party' => (hparent party').symm⟩
  cases party <;> cases party'
  · rfl
  · exact absurd h.symm hne
  · exact absurd h hne
  · rfl

theorem limited_sampleSpend (derivation : BTreeMap logFormats.PublicKey KeySource) :
    (sampleSpend derivation).Limited where
  unsignedTx := limited_sampleShared.unsignedTx
  length_inputs := rfl
  inputs := by
    intro m hm
    obtain rfl := List.mem_singleton.1 hm
    refine ⟨nofun, fun out hout => ?_, nofun, nofun, nofun, nofun⟩
    cases hout
    exact Nat.zero_le _

theorem of_sampleSpend {derivation : BTreeMap logFormats.PublicKey KeySource} {j : ℕ} {m : Input logFormats}
    (h : (sampleSpend derivation).inputs[j]? = some m) : m.bip32Derivation = derivation ∧ m.witnessUtxo ≠ none ∧
      m.tapKeyOrigins.toList = [] ∧ m.sigs = ∅ := by
  obtain rfl := List.mem_singleton.1 (List.mem_of_getElem? h)
  refine ⟨rfl, nofun, rfl, Set.eq_empty_iff_forall_notMem.2 fun s hs => ?_⟩
  cases s with
  | partialSig key sig => exact absurd (Std.ExtTreeMap.getElem?_empty.symm.trans hs) nofun
  | tapKeySig sig => cases hs
  | tapScriptSig key sig => exact absurd (Std.ExtTreeMap.getElem?_empty.symm.trans hs) nofun

/-- The keys of both parties. -/
def sampleDerivation : BTreeMap logFormats.PublicKey KeySource :=
  ((∅ : BTreeMap _ _).insert (logFormats.fromSecretKey (sampleChildKey false)) (sampleKeySource false)).insert
    (logFormats.fromSecretKey (sampleChildKey true)) (sampleKeySource true)

theorem getElem?_sampleDerivation (pk : logFormats.PublicKey) (source : KeySource) :
    sampleDerivation[pk]? = some source ↔
      ∃ party, logFormats.fromSecretKey (sampleChildKey party) = pk ∧ sampleKeySource party = source := by
  rw [sampleDerivation, BTreeMap.getElem?_insert, BTreeMap.getElem?_insert, Bool.exists_bool]
  have hempty : (∅ : BTreeMap logFormats.PublicKey KeySource)[pk]? = none := Std.ExtTreeMap.getElem?_empty
  rw [hempty]
  have hne : sampleChildKey false ≠ sampleChildKey true := by decide
  have hne' : logFormats.fromSecretKey (sampleChildKey false) ≠ logFormats.fromSecretKey (sampleChildKey true) := hne
  by_cases htrue : logFormats.fromSecretKey (sampleChildKey true) = pk
  · have hfalse : logFormats.fromSecretKey (sampleChildKey false) ≠ pk := htrue ▸ hne'
    simp [htrue, hfalse]
  · by_cases hfalse : logFormats.fromSecretKey (sampleChildKey false) = pk <;> simp [htrue, hfalse]

/-- Both parties sign an address of their wallet, one what the other has signed. -/
theorem cosigners_sign_sample : ∃ p keys q, Updated sampleCosigner (fun _ => [.normal 7]) p ∧
    (∀ c, Answers (sampleCosigner c).master.getKey (keys c) p) ∧
    Workflow.run logSigning keys p (.sign false (.sign true .start)) = some q ∧
      q.sigsAt 0 = ⋃ c ∈ (Workflow.sign false (.sign true .start)).signers,
        (sampleCosigner c).sigs logSigning p 0 [.normal 7] := by
  obtain ⟨-, hparent⟩ := fingerprint_sampleMaster
  have hupdated : Updated sampleCosigner (fun _ => [.normal 7]) (sampleSpend sampleDerivation) := by
    refine ⟨fun j m hm e => ?_, fun m hm => ?_, fun _ _ c => ⟨(entry_sampleCosigner c).1, fun _ _ => trivial⟩⟩
    · obtain ⟨pk, source⟩ := e
      rw [(of_sampleSpend hm).1, BTreeMap.mem_toList_iff, getElem?_sampleDerivation]
      refine exists_congr fun party => ?_
      rw [(entry_sampleCosigner party).2.2, Outcome.ok.injEq]
      exact Prod.mk_inj.symm
    · obtain ⟨j, hj⟩ := List.mem_iff_getElem?.1 hm
      exact (of_sampleSpend hj).2.2.1
  have hkeys : ∀ c, ∃ k, Answers (sampleCosigner c).master.getKey k (sampleSpend sampleDerivation) := by
    refine fun c => exists_answers fun r hr => ?_
    obtain ⟨pk, source, hget, rfl | rfl⟩ := mem_requests_sampleSpend hr
    · obtain ⟨party, -, rfl⟩ := (getElem?_sampleDerivation pk source).1 hget
      by_cases hparty : party = c
      · subst hparty
        obtain ⟨sk, hsk⟩ := (entry_sampleCosigner party).2.1
        show ((sampleMaster party).getKey (.bip32 ((sampleMaster party).fingerprint, [.normal 7]))).NoPanic
        rw [Xpriv.getKey_self, hsk]
        exact Outcome.noPanic_ok _
      · rw [Xpriv.getKey_of_ne
          (fun h => hparty (distinguished_sampleCosigner.fingerprint party c h.symm)) (hparent party).symm]
        exact Outcome.noPanic_ok _
    · exact Outcome.noPanic_err _
  choose keys hkeys using hkeys
  have hbounds : ∀ j, ¬(sampleSpend sampleDerivation).OutOfBoundsAt j := by
    rintro j ⟨q, hq, hnone, -⟩
    exact (of_sampleSpend (spends_eq_some_iff.1 hq).2).2.1 hnone
  have hnone : ∀ j, (sampleSpend sampleDerivation).sigsAt j = ∅ := by
    intro j
    rw [Set.eq_empty_iff_forall_notMem]
    rintro s ⟨m, hm, hs⟩
    rw [(of_sampleSpend hm).2.2.2] at hs
    cases hs
  obtain ⟨q, hq, -, hsigs⟩ := cosigners_sign sampleCurve_homomorphic distinguished_sampleCosigner hupdated hkeys
    (limited_sampleSpend _) hbounds hnone logSigning (.sign false (.sign true .start))
  exact ⟨_, keys, q, hupdated, hkeys, hq, hsigs 0 Nat.zero_lt_one⟩

end Psbt

end RustDogecoin
