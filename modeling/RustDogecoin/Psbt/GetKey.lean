import RustDogecoin.Psbt.Combine
import RustDogecoin.Psbt.SignPanics

/-!
# Extended keys that sign

The keys that `psbt/mod.rs` takes from extended private keys: an extended key answers for the paths that start
at it, and for those that start at its parent and go through it; a set of them answers with the first of its
keys that does.

A signer can be seen only through its answers to the key requests of a transaction (`sign_congr`), so that any
set of a key and its children, among keys of others, signs as the key itself does, as long as it reaches every
path (`sign_set_eq_sign`).
-/

namespace RustDogecoin

open Bip32

variable {S : KeyFormats}

namespace Psbt

variable (S) in
/-- `GetKeyError`. -/
inductive GetKeyError where
  | bip32 (e : Bip32.Error S.toSecp256k1)
  | notSupported

end Psbt

namespace Bip32.Xpriv

/-- `Xpriv::to_priv`. -/
def toPriv (sk : Xpriv S.toSecp256k1) : PrivateKey S.toSecp256k1 := ⟨true, sk.network, sk.privateKey⟩

/-- `GetKey::get_key`. -/
def getKey (sk : Xpriv S.toSecp256k1) :
    Psbt.KeyRequest S → Outcome (Psbt.GetKeyError S) (Option (PrivateKey S.toSecp256k1))
  | .pubkey _ => .err .notSupported
  | .xOnlyPubkey _ => .err .notSupported
  | .bip32 (fingerprint, path) =>
    if sk.fingerprint = fingerprint then do
      let k ← (sk.derivePriv path).mapErr .bip32
      return some k.toPriv
    else if sk.parentFingerprint = fingerprint ∧ path.head? = some sk.childNumber then do
      let k ← (sk.derivePriv (path.drop 1)).mapErr .bip32
      return some k.toPriv
    else .ok none

/-- `GetKey::get_key` of a set, in the order of its iteration. -/
def getKeyOfSet (request : Psbt.KeyRequest S) :
    List (Xpriv S.toSecp256k1) → Outcome (Psbt.GetKeyError S) (Option (PrivateKey S.toSecp256k1))
  | [] => .ok none
  | xpriv :: set =>
    match xpriv.getKey request with
    | .ok none => getKeyOfSet request set
    | x => x

/-! ## Answers -/

/-- A key of others does not answer. -/
theorem getKey_of_ne {sk : Xpriv S.toSecp256k1} {source : KeySource} (h : sk.fingerprint ≠ source.1)
    (hparent : sk.parentFingerprint ≠ source.1) : sk.getKey (.bip32 source) = .ok none := by
  obtain ⟨fingerprint, path⟩ := source
  rw [getKey, if_neg h, if_neg fun hand => hparent hand.1]

theorem getKey_self (sk : Xpriv S.toSecp256k1) (path : List ChildNumber) :
    sk.getKey (.bip32 (sk.fingerprint, path)) = (do
      let k ← (sk.derivePriv path).mapErr .bip32
      return some k.toPriv) := by
  rw [getKey, if_pos rfl]

/-- What a child records of its parent. -/
theorem of_ckdPriv {sk child : Xpriv S.toSecp256k1} {i : ChildNumber} (h : sk.ckdPriv i = .ok child) :
    child.parentFingerprint = sk.fingerprint ∧ child.childNumber = i := by
  obtain ⟨tweak, -, h⟩ := Outcome.bind_eq_ok_iff.1 h
  obtain ⟨tweaked, -, h⟩ := Outcome.bind_eq_ok_iff.1 h
  obtain ⟨depth, -, h⟩ := Outcome.bind_eq_ok_iff.1 h
  obtain rfl := Outcome.ok.inj h
  exact ⟨rfl, rfl⟩

/-- A child whose tweaked key is known. -/
theorem ckdPriv_of {T : Secp256k1} {sk : Xpriv T} {i : ChildNumber} {tweak tweaked : T.SecretKey}
    (htweak : T.secretKeyFromSlice (leftHalf (sk.childHmac i)) = .ok tweak)
    (hadd : T.addTweak tweak sk.privateKey = .ok tweaked) (hdepth : sk.depth.toNat + 1 < 256) :
    sk.ckdPriv i = .ok ⟨sk.network, sk.depth + 1, sk.fingerprint, i, tweaked, .fromHmac (sk.childHmac i)⟩ := by
  simp [Xpriv.ckdPriv, htweak, hadd, nextDepth, Outcome.ensure_of hdepth]

theorem derivePriv_singleton {T : Secp256k1} (sk : Xpriv T) (i : ChildNumber) : sk.derivePriv [i] = sk.ckdPriv i := by
  rw [derivePriv, List.foldlM_cons]
  exact bind_pure _

/-- A child answers as its parent does for the paths through it, and not at all for other paths of its parent. -/
theorem getKey_child {sk child : Xpriv S.toSecp256k1} {i : ChildNumber} (h : sk.ckdPriv i = .ok child)
    (hne : child.fingerprint ≠ sk.fingerprint) (path : List ChildNumber) :
    child.getKey (.bip32 (sk.fingerprint, path)) =
      if path.head? = some i then sk.getKey (.bip32 (sk.fingerprint, path)) else .ok none := by
  obtain ⟨hparent, hnumber⟩ := of_ckdPriv h
  rw [getKey, if_neg hne, hparent, hnumber]
  by_cases hi : path.head? = some i
  · obtain ⟨rest, rfl⟩ := List.head?_eq_some_iff.1 hi
    have hderive : sk.derivePriv (i :: rest) = child.derivePriv rest := by
      rw [derivePriv, List.foldlM_cons, h, Outcome.ok_bind, derivePriv]
    rw [if_pos ⟨rfl, hi⟩, if_pos hi, getKey_self, hderive, List.drop_one, List.tail_cons]
  · rw [if_neg fun hand => hi hand.2, if_neg hi]

theorem getKeyOfSet_of_none {request : Psbt.KeyRequest S} {set : List (Xpriv S.toSecp256k1)}
    (h : ∀ sk ∈ set, sk.getKey request = .ok none) : getKeyOfSet request set = .ok none := by
  induction set with
  | nil => rfl
  | cons sk set ih =>
    rw [List.forall_mem_cons] at h
    rw [getKeyOfSet, h.1]
    exact ih h.2

/-- A set answers as one of its keys does, if the others agree with it or do not answer. -/
theorem getKeyOfSet_eq {request : Psbt.KeyRequest S} {set : List (Xpriv S.toSecp256k1)}
    {x : Outcome (Psbt.GetKeyError S) (Option (PrivateKey S.toSecp256k1))}
    (hset : ∀ sk ∈ set, sk.getKey request = x ∨ sk.getKey request = .ok none)
    (hmem : ∃ sk ∈ set, sk.getKey request = x) : getKeyOfSet request set = x := by
  by_cases hx : x = .ok none
  · subst hx
    exact getKeyOfSet_of_none fun sk hsk => or_self_iff.1 (hset sk hsk)
  induction set with
  | nil =>
    obtain ⟨sk, hsk, -⟩ := hmem
    cases hsk
  | cons sk set ih =>
    rw [List.forall_mem_cons] at hset
    rw [List.exists_mem_cons_iff] at hmem
    rcases hset.1 with hanswer | hnone
    · rw [getKeyOfSet, hanswer]
      cases x with
      | ok key =>
        cases key with
        | none => exact absurd rfl hx
        | some key => rfl
      | err e => rfl
      | panic p => rfl
    · rw [getKeyOfSet, hnone]
      exact ih hset.2 (hmem.resolve_left fun hanswer => hx (hanswer.symm.trans hnone))

end Bip32.Xpriv

/-! ## Requests -/

namespace Psbt

open Sighash SighashCache Effect

/-- The key requests that signing an input makes. -/
def Input.requests (m : Input S) : Set (KeyRequest S) :=
  {r | (∃ entry ∈ m.bip32Derivation.toList, r = .bip32 entry.2 ∨ r = .pubkey ⟨true, entry.1⟩) ∨
    ∃ entry ∈ m.tapKeyOrigins.toList, r = .bip32 entry.2.2 ∨ r = .xOnlyPubkey entry.1}

/-- The key requests that `sign` makes. -/
def requests (p : Psbt S) : Set (KeyRequest S) := {r | ∃ m ∈ p.inputs, r ∈ m.requests}

variable {p q : Psbt S} {i : ℕ} {E E' : Type} {secp : Signing S} {k : GetKey S E} {k' : GetKey S E'}

theorem requests_congr (h : q.unsigned = p.unsigned) : q.requests = p.requests := by
  have hmaps : q.inputs.map Input.unsigned = p.inputs.map Input.unsigned := by
    have hfield := congrArg Psbt.inputs h
    exact hfield
  have hrequests (p : Psbt S) : p.requests = {r | ∃ m ∈ p.inputs.map Input.unsigned, r ∈ m.requests} := by
    ext r
    constructor
    · rintro ⟨m, hm, hr⟩
      exact ⟨m.unsigned, List.mem_map_of_mem hm, hr⟩
    · rintro ⟨m', hm', hr⟩
      obtain ⟨m, hm, rfl⟩ := List.mem_map.1 hm'
      exact ⟨m, hm, hr⟩
  rw [hrequests q, hmaps, ← hrequests p]

theorem signEcdsaWith_congr {message : Except SignError (Hash × EcdsaSighashType)}
    {state : Input S × List (PublicKey S)} {entry : S.PublicKey × KeySource}
    (hbip32 : Psbt.getKey k (.bip32 entry.2) = Psbt.getKey k' (.bip32 entry.2))
    (hpubkey : Psbt.getKey k (.pubkey ⟨true, entry.1⟩) = Psbt.getKey k' (.pubkey ⟨true, entry.1⟩)) :
    signEcdsaWith secp k message state entry = signEcdsaWith secp k' message state entry := by
  rw [signEcdsaWith, hbip32, hpubkey, signEcdsaWith]

theorem signSchnorrWith_congr {state : Input S × List S.XOnlyPublicKey}
    {entry : S.XOnlyPublicKey × List TapLeafHash × KeySource}
    (hbip32 : Psbt.getKey k (.bip32 entry.2.2) = Psbt.getKey k' (.bip32 entry.2.2))
    (hxonly : Psbt.getKey k (.xOnlyPubkey entry.1) = Psbt.getKey k' (.xOnlyPubkey entry.1)) :
    signSchnorrWith secp k p i state entry = signSchnorrWith secp k' p i state entry := by
  rw [signSchnorrWith, hbip32, hxonly, signSchnorrWith]

section Congr

variable (h : ∀ r ∈ p.requests, Psbt.getKey k r = Psbt.getKey k' r)

include h

theorem bip32SignEcdsa_congr (i : ℕ) : bip32SignEcdsa secp k p i = bip32SignEcdsa secp k' p i := by
  refine congrArg (_ >>= ·) (funext fun message => ?_)
  refine Yields.bind_congr (.ofOutcome (Q := fun m => p.inputs[i]? = some m) fun m => index_eq_ok_iff.1) fun m hm => ?_
  have hloop : m.bip32Derivation.toList.foldlM (signEcdsaWith secp k message) (m, []) =
      m.bip32Derivation.toList.foldlM (signEcdsaWith secp k' message) (m, []) := by
    refine List.foldlM_congr_mem (fun state entry hentry => signEcdsaWith_congr (h _ ?_) (h _ ?_)) _
    · exact ⟨m, List.mem_of_getElem? hm, Or.inl ⟨entry, hentry, Or.inl rfl⟩⟩
    · exact ⟨m, List.mem_of_getElem? hm, Or.inl ⟨entry, hentry, Or.inr rfl⟩⟩
  rw [hloop]

theorem bip32SignSchnorr_congr (i : ℕ) : bip32SignSchnorr secp k p i = bip32SignSchnorr secp k' p i := by
  refine Yields.bind_congr (.ofOutcome (Q := fun m => p.inputs[i]? = some m) fun m => getElem?_of_checkedInput)
    fun m hm => ?_
  have hloop : m.tapKeyOrigins.toList.foldlM (signSchnorrWith secp k p i) (m, []) =
      m.tapKeyOrigins.toList.foldlM (signSchnorrWith secp k' p i) (m, []) := by
    refine List.foldlM_congr_mem (fun state entry hentry => signSchnorrWith_congr (h _ ?_) (h _ ?_)) _
    · exact ⟨m, List.mem_of_getElem? hm, Or.inr ⟨entry, hentry, Or.inl rfl⟩⟩
    · exact ⟨m, List.mem_of_getElem? hm, Or.inr ⟨entry, hentry, Or.inr rfl⟩⟩
  rw [hloop]

theorem signInput_congr (i : ℕ) : signInput secp k p i = signInput secp k' p i := by
  refine congrArg (_ >>= ·) (funext fun algorithm => ?_)
  cases algorithm with
  | ecdsa => exact congrArg (· >>= _) (bip32SignEcdsa_congr h i)
  | schnorr => exact congrArg (· >>= _) (bip32SignSchnorr_congr h i)

/-- Two signers that answer the requests of a transaction alike sign it alike. -/
theorem sign_congr : p.sign secp k = p.sign secp k' := by
  have hturn : ∀ (state : SignState S) (i : ℕ), state.psbt.unsigned = p.unsigned →
      Yields (signTurn secp k state i) fun state' => state'.psbt.unsigned = p.unsigned := by
    intro state i hstate
    refine (yields_signInput secp k state.psbt i).attempt.bind fun result hresult => ?_
    cases result with
    | ok r => exact .pure ((hresult r rfl).unsigned.trans hstate)
    | error e => exact .pure hstate
  have hloop : (List.range p.inputs.length).foldlM (signTurn secp k) { psbt := p } =
      (List.range p.inputs.length).foldlM (signTurn secp k') { psbt := p } := by
    refine Yields.foldlM_congr hturn (fun state i _ hstate => ?_) rfl
    have hrequests : ∀ r ∈ state.psbt.requests, Psbt.getKey k r = Psbt.getKey k' r := by
      rw [requests_congr hstate]
      exact h
    rw [signTurn, signInput_congr hrequests, signTurn]
  rw [sign, hloop, sign]

end Congr

/-! ## Keys that sign -/

/-- The signer gives what `get_key` returns for the requests of the transaction. -/
def Answers (getKey : KeyRequest S → Outcome (GetKeyError S) (Option (PrivateKey S.toSecp256k1)))
    (k : GetKey S (GetKeyError S)) (p : Psbt S) : Prop := ∀ r ∈ p.requests, getKey r = .ofExcept (k r)

theorem Answers.getKey_eq_some_iff {f : KeyRequest S → Outcome (GetKeyError S) (Option (PrivateKey S.toSecp256k1))}
    {k : GetKey S (GetKeyError S)} (h : Answers f k p) {r : KeyRequest S} (hr : r ∈ p.requests)
    {sk : PrivateKey S.toSecp256k1} : Psbt.getKey k r = some sk ↔ f r = .ok (some sk) := by
  rw [h r hr, Outcome.ofExcept_eq_ok_iff, Psbt.getKey]
  cases k r with
  | error e => simp
  | ok key => cases key <;> simp

/-- There is a signer for a `get_key` that does not panic. -/
theorem exists_answers {f : KeyRequest S → Outcome (GetKeyError S) (Option (PrivateKey S.toSecp256k1))}
    (h : ∀ r ∈ p.requests, (f r).NoPanic) : ∃ k, Answers f k p := by
  have hanswer : ∀ r, ∃ x, r ∈ p.requests → f r = .ofExcept x := by
    intro r
    cases hf : f r with
    | ok key => exact ⟨.ok key, fun _ => rfl⟩
    | err e => exact ⟨.error e, fun _ => rfl⟩
    | panic e => exact ⟨.ok none, fun hr => absurd hf (h r hr e)⟩
  choose k hk using hanswer
  exact ⟨k, hk⟩

/-- The key is of others: no source of the transaction is its own or its parent's. -/
def Foreign (sk : Xpriv S.toSecp256k1) (p : Psbt S) : Prop :=
  ∀ source, .bip32 source ∈ p.requests → sk.fingerprint ≠ source.1 ∧ sk.parentFingerprint ≠ source.1

/-- A set of extended keys that belongs to a key: the key itself, children of it, and keys of others, which
reach all sources that start at the key. -/
structure BelongsTo (set : List (Xpriv S.toSecp256k1)) (sk : Xpriv S.toSecp256k1) (p : Psbt S) : Prop where
  mem : ∀ member ∈ set, member = sk ∨
    ((∃ i, sk.ckdPriv i = .ok member) ∧
      ∀ source, .bip32 source ∈ p.requests → member.fingerprint ≠ source.1) ∨ Foreign member p
  reached : ∀ source, .bip32 source ∈ p.requests → source.1 = sk.fingerprint → sk ∈ set ∨
    ∃ i child, sk.ckdPriv i = .ok child ∧ child ∈ set ∧ source.2.head? = some i
  -- no source starts at the parent of the key
  parent : ∀ source, .bip32 source ∈ p.requests → source.1 ≠ sk.parentFingerprint

/-- For a source, the set answers as the key itself does. -/
theorem BelongsTo.getKeyOfSet_bip32 {set : List (Xpriv S.toSecp256k1)} {sk : Xpriv S.toSecp256k1}
    (h : BelongsTo set sk p) {source : KeySource} (hsource : .bip32 source ∈ p.requests) :
    Xpriv.getKeyOfSet (.bip32 source) set = sk.getKey (.bip32 source) := by
  by_cases hself : source.1 = sk.fingerprint
  · obtain ⟨fingerprint, path⟩ := source
    obtain rfl : fingerprint = sk.fingerprint := hself
    apply Xpriv.getKeyOfSet_eq
    · intro member hmember
      rcases h.mem member hmember with rfl | ⟨⟨i, hi⟩, hne⟩ | hforeign
      · exact Or.inl rfl
      · rw [Xpriv.getKey_child hi (hne _ hsource)]
        split_ifs
        · exact Or.inl rfl
        · exact Or.inr rfl
      · exact Or.inr (Xpriv.getKey_of_ne (hforeign _ hsource).1 (hforeign _ hsource).2)
    · rcases h.reached _ hsource rfl with hmem | ⟨i, child, hchild, hmem, hhead⟩
      · exact ⟨sk, hmem, rfl⟩
      · refine ⟨child, hmem, ?_⟩
        rcases h.mem child hmem with rfl | ⟨-, hne⟩ | hforeign
        · rfl
        · rw [Xpriv.getKey_child hchild (hne _ hsource), if_pos hhead]
        · exact absurd (Xpriv.of_ckdPriv hchild).1 (hforeign _ hsource).2
  · -- the source is of others
    rw [Xpriv.getKey_of_ne (Ne.symm hself) (h.parent _ hsource).symm]
    apply Xpriv.getKeyOfSet_of_none
    intro member hmember
    rcases h.mem member hmember with rfl | ⟨⟨i, hi⟩, hne⟩ | hforeign
    · exact Xpriv.getKey_of_ne (Ne.symm hself) (h.parent _ hsource).symm
    · refine Xpriv.getKey_of_ne (hne _ hsource) ?_
      rw [(Xpriv.of_ckdPriv hi).1]
      exact Ne.symm hself
    · exact Xpriv.getKey_of_ne (hforeign _ hsource).1 (hforeign _ hsource).2

theorem getKeyOfSet_ne_some {set : List (Xpriv S.toSecp256k1)} {r : KeyRequest S} (hr : ∀ source, r ≠ .bip32 source)
    (sk : PrivateKey S.toSecp256k1) : Xpriv.getKeyOfSet r set ≠ .ok (some sk) := by
  cases set with
  | nil => exact nofun
  | cons member set =>
    cases r with
    | bip32 source => exact absurd rfl (hr source)
    | _ => exact nofun

/-- Whoever signs with a set of extended keys that belongs to a key, signs as the key itself does. -/
theorem sign_set_eq_sign {set : List (Xpriv S.toSecp256k1)} {sk : Xpriv S.toSecp256k1} (h : BelongsTo set sk p)
    {k k' : GetKey S (GetKeyError S)} (hk : Answers (Xpriv.getKeyOfSet · set) k p) (hk' : Answers sk.getKey k' p)
    (secp : Signing S) : p.sign secp k = p.sign secp k' := by
  refine sign_congr fun r hr => Option.ext fun key => ?_
  rw [hk.getKey_eq_some_iff hr, hk'.getKey_eq_some_iff hr]
  cases r with
  | bip32 source => rw [h.getKeyOfSet_bip32 hr]
  | pubkey _ =>
    apply iff_of_false
    · exact getKeyOfSet_ne_some (by rintro source ⟨⟩) key
    · exact nofun
  | xOnlyPubkey _ =>
    apply iff_of_false
    · exact getKeyOfSet_ne_some (by rintro source ⟨⟩) key
    · exact nofun

/-! ## Keys on the curve

As in `Secp256k1.curve`, a public key stands for its discrete logarithm; no public key is read.  The point of the
first child is known. -/

abbrev logOrder : LinearOrder Secp256k1.Scalar := inferInstance

def logFormats : KeyFormats where
  toSecp256k1 := Bip32.sampleCurve
  XOnlyPublicKey := KeyFormats.curve.XOnlyPublicKey
  EcdsaSignature := KeyFormats.curve.EcdsaSignature
  SchnorrSignature := KeyFormats.curve.SchnorrSignature
  publicKeyOrder := logOrder
  xOnlyPublicKeyOrder := KeyFormats.curve.xOnlyPublicKeyOrder
  publicKeyFromSlice _ := .error .invalidPublicKey
  serializeUncompressed key := KeyFormats.curve.serializeUncompressed (KeyFormats.curve.fromSecretKey key)
  xOnlyFromSlice := KeyFormats.curve.xOnlyFromSlice
  xOnlySerialize := KeyFormats.curve.xOnlySerialize
  fromDer := KeyFormats.curve.fromDer
  serializeDer := KeyFormats.curve.serializeDer
  schnorrFromSlice := KeyFormats.curve.schnorrFromSlice
  schnorrBytes := KeyFormats.curve.schnorrBytes

def logSigning : Signing logFormats where
  Keypair := sampleSigning.Keypair
  Scalar := sampleSigning.Scalar
  fromSecretKey := sampleSigning.fromSecretKey
  xOnlyFromKeypair := sampleSigning.xOnlyFromKeypair
  xOnlyFromPublicKey key := sampleSigning.xOnlyFromPublicKey (KeyFormats.curve.fromSecretKey key)
  scalarFromBeBytes := sampleSigning.scalarFromBeBytes
  addXonlyTweak := sampleSigning.addXonlyTweak
  signEcdsa := sampleSigning.signEcdsa
  signSchnorr := sampleSigning.signSchnorr

/-- The master keys of two parties. -/
def sampleMaster (party : Bool) : Xpriv logFormats.toSecp256k1 :=
  { sampleKey with privateKey := ⟨if party then 2 else 1, by cases party <;> decide⟩ }

theorem fingerprint_sampleMaster : (sampleMaster true).fingerprint ≠ (sampleMaster false).fingerprint ∧
    ∀ party, (sampleMaster party).fingerprint ≠ .replicate 4 0 := by
  decide +kernel

/-- A transaction with one input, which spends a witness output. -/
def sampleSpend (derivation : BTreeMap logFormats.PublicKey KeySource) : Psbt logFormats where
  unsignedTx := sampleTx
  inputs := [{ witnessUtxo := some ⟨1000, []⟩, bip32Derivation := derivation }]

theorem mem_requests_sampleSpend {derivation : BTreeMap logFormats.PublicKey KeySource}
    {r : KeyRequest logFormats} (h : r ∈ (sampleSpend derivation).requests) :
    ∃ pk source, derivation[pk]? = some source ∧ (r = .bip32 source ∨ r = .pubkey ⟨true, pk⟩) := by
  obtain ⟨m, hm, ⟨⟨pk, source⟩, he, hr⟩ | ⟨entry, hentry, -⟩⟩ := h
  · obtain rfl := List.mem_singleton.1 hm
    exact ⟨pk, source, (BTreeMap.mem_toList_iff _ _ _).1 he, hr⟩
  · obtain rfl := List.mem_singleton.1 hm
    cases hentry

/-- The private key of a child of a master key. -/
def sampleChild (party : Bool) : Except Secp256k1.CurveError Secp256k1.Scalar := do
  let tweak ← logFormats.secretKeyFromSlice (leftHalf ((sampleMaster party).childHmac (.normal 7)))
  logFormats.addTweak tweak (sampleMaster party).privateKey

/-- The private keys of both children. -/
def sampleChildKey (party : Bool) : Secp256k1.Scalar :=
  ⟨if party then 98058366450358832851576700338879464524516311302378761342533752145747987323568
    else 27691905373756635011466989145180100355695069987003503134148618363100876240896, by cases party <;> decide⟩

theorem sampleChild_eq : (∀ party, sampleChild party = .ok (sampleChildKey party)) ∧
    ({ sampleMaster false with privateKey := sampleChildKey false } : Xpriv logFormats.toSecp256k1).fingerprint ≠
      (sampleMaster false).fingerprint := by
  decide +kernel

theorem exists_ckdPriv_sampleMaster (party : Bool) : ∃ tweak child,
    logFormats.secretKeyFromSlice (leftHalf ((sampleMaster party).childHmac (.normal 7))) = .ok tweak ∧
    logFormats.addTweak tweak (sampleMaster party).privateKey = .ok (sampleChildKey party) ∧
    (sampleMaster party).ckdPriv (.normal 7) = .ok child ∧ child.privateKey = sampleChildKey party := by
  have hkey := sampleChild_eq.1 party
  cases htweak : logFormats.secretKeyFromSlice (leftHalf ((sampleMaster party).childHmac (.normal 7))) with
  | error e =>
    rw [sampleChild, htweak] at hkey
    cases hkey
  | ok tweak =>
    rw [sampleChild, htweak] at hkey
    have hdepth : (sampleMaster party).depth.toNat + 1 < 256 := show (0 : UInt8).toNat + 1 < 256 by decide
    exact ⟨tweak, _, rfl, hkey, Xpriv.ckdPriv_of htweak hkey hdepth, rfl⟩

/-- The source of the key of a child. -/
def sampleKeySource (party : Bool) : KeySource := ((sampleMaster party).fingerprint, [.normal 7])

/-- An input with the key of the child of the first party. -/
def sampleOwn : Psbt logFormats :=
  sampleSpend ((∅ : BTreeMap _ _).insert (logFormats.fromSecretKey (sampleChildKey false)) (sampleKeySource false))

theorem requests_sampleOwn {r : KeyRequest logFormats} (hr : r ∈ sampleOwn.requests) :
    r = .bip32 (sampleKeySource false) ∨ ∃ pk, r = .pubkey pk := by
  obtain ⟨pk, source, hget, hr⟩ := mem_requests_sampleSpend hr
  rw [BTreeMap.getElem?_insert] at hget
  split_ifs at hget
  · obtain rfl := Option.some.inj hget
    exact hr.imp_right fun h => ⟨_, h⟩
  · cases hget

theorem mem_requests_sampleOwn : .bip32 (sampleKeySource false) ∈ sampleOwn.requests := by
  refine ⟨_, List.mem_singleton_self _, Or.inl ⟨(logFormats.fromSecretKey (sampleChildKey false), _), ?_, Or.inl rfl⟩⟩
  rw [BTreeMap.mem_toList_iff, BTreeMap.getElem?_insert, if_pos rfl, sampleKeySource]

/-- The key of the second party, and the child of the first without its master key. -/
theorem belongsTo_sampleOwn {child : Xpriv logFormats.toSecp256k1}
    (hchild : (sampleMaster false).ckdPriv (.normal 7) = .ok child)
    (hfingerprint : child.fingerprint ≠ (sampleMaster false).fingerprint) :
    BelongsTo [sampleMaster true, child] (sampleMaster false) sampleOwn := by
  obtain ⟨hne, hparent⟩ := fingerprint_sampleMaster
  have hsource : ∀ source, .bip32 source ∈ sampleOwn.requests → source = sampleKeySource false := by
    intro source hsource
    rcases requests_sampleOwn hsource with hr | ⟨pk, hr⟩
    · cases hr
      rfl
    · cases hr
  refine ⟨?_, fun source hs _ => ?_, fun source hs => ?_⟩
  · rw [List.forall_mem_cons, List.forall_mem_singleton]
    refine ⟨Or.inr (Or.inr fun source hs => ?_), Or.inr (Or.inl ⟨⟨_, hchild⟩, fun source hs => ?_⟩)⟩
    · rw [hsource source hs]
      exact ⟨hne, (hparent false).symm⟩
    · rw [hsource source hs]
      exact hfingerprint
  · rw [hsource source hs]
    exact Or.inr ⟨_, child, hchild, by simp, rfl⟩
  · rw [hsource source hs]
    exact hparent false

theorem sign_set_eq_sign_sample : ∃ child k k', (sampleMaster false).ckdPriv (.normal 7) = .ok child ∧
    .bip32 (sampleKeySource false) ∈ sampleOwn.requests ∧
    Answers (Xpriv.getKeyOfSet · [sampleMaster true, child]) k sampleOwn ∧
    Answers (sampleMaster false).getKey k' sampleOwn ∧ sampleOwn.sign logSigning k = sampleOwn.sign logSigning k' := by
  obtain ⟨-, child, -, -, hchild, hprivate⟩ := exists_ckdPriv_sampleMaster false
  have hne : child.fingerprint ≠ (sampleMaster false).fingerprint := by
    have hfingerprint := sampleChild_eq.2
    rw [← hprivate] at hfingerprint
    exact hfingerprint
  have hbelongs := belongsTo_sampleOwn hchild hne
  have hself : (sampleMaster false).getKey (.bip32 (sampleKeySource false)) = .ok (some child.toPriv) := by
    rw [sampleKeySource, Xpriv.getKey_self, Xpriv.derivePriv_singleton, hchild]
    rfl
  obtain ⟨k, hk⟩ : ∃ k, Answers (Xpriv.getKeyOfSet · [sampleMaster true, child]) k sampleOwn := by
    refine exists_answers fun r hr => ?_
    rcases requests_sampleOwn hr with rfl | ⟨pk, rfl⟩
    · rw [hbelongs.getKeyOfSet_bip32 hr, hself]
      exact Outcome.noPanic_ok _
    · exact Outcome.noPanic_err _
  obtain ⟨k', hk'⟩ : ∃ k, Answers (sampleMaster false).getKey k sampleOwn := by
    refine exists_answers fun r hr => ?_
    rcases requests_sampleOwn hr with rfl | ⟨pk, rfl⟩
    · rw [hself]
      exact Outcome.noPanic_ok _
    · exact Outcome.noPanic_err _
  exact ⟨child, k, k', hchild, mem_requests_sampleOwn, hk, hk', sign_set_eq_sign hbelongs hk hk' _⟩

end Psbt

end RustDogecoin
