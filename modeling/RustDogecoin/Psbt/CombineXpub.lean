import RustDogecoin.Lib.Entries
import RustDogecoin.Psbt.Combine

/-!
# Conflicting key sources

The loop in `Psbt::combine` over the extended keys, against what the comment in it says: `chooseSource` is the
choice between two sources of one key.  The loop differs from it in two cases (`Flawed`): for equal paths with
different fingerprints it takes the other source, and a shorter path of the other transaction that is no
suffix makes the subtraction of the lengths underflow.  A run of the loop goes as documented exactly if no
such key comes up before an error (`combine_eq_documented_iff`).

The loop writes as it goes, after the version.  `combine_eq_err` says what is left of `self` by an error.
-/

namespace RustDogecoin

namespace Psbt

variable {S : KeyFormats}

/-! ## One key -/

/-- `d` is a suffix of `d'`, and not all of it. -/
def StrictSuffix (d d' : List Bip32.ChildNumber) : Prop := d <:+ d' ∧ d ≠ d'

instance (d d' : List Bip32.ChildNumber) : Decidable (StrictSuffix d d') := inferInstanceAs (Decidable (_ ∧ _))

/-- The source that is documented to stay, of that of the other transaction and that of `self`. -/
def chooseSource (source1 source2 : KeySource) : Option KeySource :=
  if source1 = source2 ∨ StrictSuffix source1.2 source2.2 then some source2
  else if StrictSuffix source2.2 source1.2 then some source1
  else none

/-- One turn of the loop as it is documented. -/
def documentedMerge (xpubs : BTreeMap (Bip32.Xpub S.toSecp256k1) KeySource)
    (xpub : Bip32.Xpub S.toSecp256k1) (source : KeySource) :
    Outcome (Error S) (BTreeMap (Bip32.Xpub S.toSecp256k1) KeySource) :=
  match xpubs[xpub]? with
  | none => .ok (xpubs.insert xpub source)
  | some source2 =>
    match chooseSource source source2 with
    | some chosen => .ok (xpubs.insert xpub chosen)
    | none => .err (.combineInconsistentKeySources xpub)

/-- The paths are equal and the fingerprints are not, or the path of the other transaction is shorter and no
suffix. -/
def Flawed (source1 source2 : KeySource) : Prop :=
  (source1.2 = source2.2 ∧ source1.1 ≠ source2.1) ∨
    (source1.2.length < source2.2.length ∧ ¬source1.2 <:+ source2.2)

theorem strictSuffix_iff {d d' : List Bip32.ChildNumber} :
    StrictSuffix d d' ↔ d.length < d'.length ∧ d <:+ d' := by
  constructor
  · rintro ⟨hsuffix, hne⟩
    refine ⟨lt_of_le_of_ne hsuffix.length_le ?_, hsuffix⟩
    exact fun hlen => hne (hsuffix.eq_of_length hlen)
  · rintro ⟨hlt, hsuffix⟩
    refine ⟨hsuffix, ?_⟩
    rintro rfl
    exact Nat.lt_irrefl _ hlt

variable {xpubs xpubs' : BTreeMap (Bip32.Xpub S.toSecp256k1) KeySource} {xpub : Bip32.Xpub S.toSecp256k1}
  {source source2 : KeySource}

theorem insert_self (h : xpubs[xpub]? = some source2) : xpubs.insert xpub source2 = xpubs := by
  apply BTreeMap.ext
  intro k
  rw [BTreeMap.getElem?_insert]
  split_ifs with hk
  · rw [← hk, h]
  · rfl

/-- A turn at a key that is there. -/
theorem mergeXpub_of_some (h : xpubs[xpub]? = some source2) :
    mergeXpub xpubs xpub source =
      if source = source2 ∨ StrictSuffix source.2 source2.2 then .ok xpubs
      else if source.2.length < source2.2.length then .panic .overflow
      else if source2.2 <:+ source.2 then .ok (xpubs.insert xpub source)
      else .err (.combineInconsistentKeySources xpub) := by
  obtain ⟨fingerprint1, derivation1⟩ := source
  obtain ⟨fingerprint2, derivation2⟩ := source2
  unfold mergeXpub
  rw [h]
  dsimp only
  simp only [← List.suffix_iff_eq_drop, Prod.mk.injEq, strictSuffix_iff]
  apply if_congr (or_congr_left and_comm) rfl
  by_cases hlt : derivation1.length < derivation2.length
  · rw [if_pos hlt, Outcome.require, if_neg (not_le.2 hlt)]
    rfl
  · rw [if_neg hlt, Outcome.require_of (not_lt.1 hlt)]
    rfl

/-- A turn goes as documented unless the sources are flawed. -/
theorem mergeXpub_eq_documentedMerge (h : ∀ source2, xpubs[xpub]? = some source2 → ¬Flawed source source2) :
    mergeXpub xpubs xpub source = documentedMerge xpubs xpub source := by
  unfold documentedMerge
  cases hget : xpubs[xpub]? with
  | none =>
    unfold mergeXpub
    rw [hget]
  | some source2 =>
    have hsound := h source2 hget
    rw [mergeXpub_of_some hget]
    dsimp only
    unfold chooseSource
    by_cases hkeep : source = source2 ∨ StrictSuffix source.2 source2.2
    · rw [if_pos hkeep, if_pos hkeep]
      dsimp only
      rw [insert_self hget]
    · rw [if_neg hkeep, if_neg hkeep]
      rw [not_or] at hkeep
      -- a shorter path is a strict suffix, and equal paths belong to equal sources
      have hlen : ¬source.2.length < source2.2.length := by
        intro hlt
        by_cases hsuffix : source.2 <:+ source2.2
        · exact hkeep.2 ⟨hsuffix, fun heq => Nat.ne_of_lt hlt (congrArg List.length heq)⟩
        · exact hsound (Or.inr ⟨hlt, hsuffix⟩)
      have hpaths : source2.2 ≠ source.2 := by
        intro heq
        apply hsound
        refine Or.inl ⟨heq.symm, fun hfingerprint => hkeep.1 (Prod.ext hfingerprint heq.symm)⟩
      have hstrict : StrictSuffix source2.2 source.2 ↔ source2.2 <:+ source.2 := and_iff_left hpaths
      rw [if_neg hlen]
      by_cases htake : source2.2 <:+ source.2
      · rw [if_pos htake, if_pos (hstrict.2 htake)]
      · rw [if_neg htake, if_neg fun hs => htake (hstrict.1 hs)]

theorem chooseSource_of_flawed (h : Flawed source source2) : chooseSource source source2 = none := by
  unfold chooseSource
  rcases h with ⟨hpath, hfingerprint⟩ | ⟨hlt, hsuffix⟩
  · rw [if_neg, if_neg]
    · exact fun hs => hs.2 hpath.symm
    · rintro (rfl | hs)
      · exact hfingerprint rfl
      · exact hs.2 hpath
  · rw [if_neg, if_neg]
    · exact fun hs => Nat.lt_irrefl _ (hlt.trans_le hs.1.length_le)
    · rintro (rfl | hs)
      · exact Nat.lt_irrefl _ hlt
      · exact hsuffix hs.1

/-- With flawed sources, a turn takes the other source or panics. -/
theorem mergeXpub_of_flawed (hget : xpubs[xpub]? = some source2) (h : Flawed source source2) :
    mergeXpub xpubs xpub source = .ok (xpubs.insert xpub source) ∨
      mergeXpub xpubs xpub source = .panic .overflow := by
  rw [mergeXpub_of_some hget]
  rcases h with ⟨hpath, hfingerprint⟩ | ⟨hlt, hsuffix⟩
  · left
    rw [if_neg, if_neg, if_pos]
    · exact hpath ▸ List.suffix_refl _
    · rw [hpath]
      exact Nat.lt_irrefl _
    · rintro (rfl | hs)
      · exact hfingerprint rfl
      · exact hs.2 hpath
  · right
    rw [if_neg, if_pos hlt]
    rintro (rfl | hs)
    · exact Nat.lt_irrefl _ hlt
    · exact hsuffix hs.1

/-! ## The loop -/

/-- The loop over the extended keys, with any turn. -/
def mergeAll (merge : BTreeMap (Bip32.Xpub S.toSecp256k1) KeySource → Bip32.Xpub S.toSecp256k1 → KeySource →
      Outcome (Error S) (BTreeMap (Bip32.Xpub S.toSecp256k1) KeySource)) :
    List (Bip32.Xpub S.toSecp256k1 × KeySource) → BTreeMap (Bip32.Xpub S.toSecp256k1) KeySource →
    BTreeMap (Bip32.Xpub S.toSecp256k1) KeySource × Outcome (Error S) Unit
  | [], xpubs => (xpubs, .ok ())
  | (xpub, source) :: rest, xpubs =>
    match merge xpubs xpub source with
    | .ok xpubs' => mergeAll merge rest xpubs'
    | .err e => (xpubs, .err e)
    | .panic p => (xpubs, .panic p)

theorem mergeXpubs_eq (entries : List (Bip32.Xpub S.toSecp256k1 × KeySource))
    (xpubs : BTreeMap (Bip32.Xpub S.toSecp256k1) KeySource) :
    mergeXpubs entries xpubs = mergeAll mergeXpub entries xpubs := by
  induction entries generalizing xpubs with
  | nil => rfl
  | cons entry entries ih =>
    obtain ⟨xpub, source⟩ := entry
    rw [mergeXpubs, mergeAll]
    cases mergeXpub xpubs xpub source with
    | ok xpubs' => exact ih xpubs'
    | err e => rfl
    | panic p => rfl

/-- A turn changes the map at its key only. -/
theorem getElem?_mergeXpub (h : mergeXpub xpubs xpub source = .ok xpubs') {k : Bip32.Xpub S.toSecp256k1}
    (hk : xpub ≠ k) : xpubs'[k]? = xpubs[k]? := by
  rcases mergeXpub_cases h with ⟨rfl, -⟩ | rfl
  · rfl
  · rw [BTreeMap.getElem?_insert, if_neg hk]

/-- An error of a turn names its key, whose source is then neither kept nor taken. -/
theorem mergeXpub_eq_err {e : Error S} (h : mergeXpub xpubs xpub source = .err e) :
    e = .combineInconsistentKeySources xpub ∧
      ∃ source2, xpubs[xpub]? = some source2 ∧ ¬Flawed source source2 ∧ chooseSource source source2 = none := by
  cases hget : xpubs[xpub]? with
  | none =>
    unfold mergeXpub at h
    rw [hget] at h
    cases h
  | some source2 =>
    have hsound : ¬Flawed source source2 := by
      intro hflawed
      rcases mergeXpub_of_flawed hget hflawed with hrun | hrun
      · rw [hrun] at h
        cases h
      · rw [hrun] at h
        cases h
    rw [mergeXpub_eq_documentedMerge fun s hs => by rwa [← Option.some.inj (hget.symm.trans hs)],
      documentedMerge, hget] at h
    dsimp only at h
    cases hchoose : chooseSource source source2 with
    | some chosen =>
      rw [hchoose] at h
      cases h
    | none =>
      rw [hchoose] at h
      cases h
      exact ⟨rfl, source2, rfl, hsound, hchoose⟩

/-- The error of a run names one of its keys. -/
theorem mem_of_mergeAll_eq_err {entries : List (Bip32.Xpub S.toSecp256k1 × KeySource)}
    (h : (mergeAll mergeXpub entries xpubs).2 = .err (.combineInconsistentKeySources xpub)) :
    ∃ entry ∈ entries, entry.1 = xpub := by
  induction entries generalizing xpubs with
  | nil => cases h
  | cons entry entries ih =>
    obtain ⟨k, source⟩ := entry
    rw [mergeAll] at h
    cases hstep : mergeXpub xpubs k source with
    | ok xpubs' =>
      rw [hstep] at h
      obtain ⟨entry, hentry, hkey⟩ := ih h
      exact ⟨entry, List.mem_cons_of_mem _ hentry, hkey⟩
    | err e =>
      rw [hstep] at h
      obtain ⟨rfl, -⟩ := mergeXpub_eq_err hstep
      cases h
      exact ⟨_, List.mem_cons_self, rfl⟩
    | panic p =>
      rw [hstep] at h
      cases h

/-- The sources of an entry are flawed. -/
def FlawedAt (xpubs : BTreeMap (Bip32.Xpub S.toSecp256k1) KeySource)
    (entry : Bip32.Xpub S.toSecp256k1 × KeySource) : Prop :=
  ∃ source2, xpubs[entry.1]? = some source2 ∧ Flawed entry.2 source2

/-- The sources of an entry are inconsistent, and not flawed. -/
def RefusedAt (xpubs : BTreeMap (Bip32.Xpub S.toSecp256k1) KeySource)
    (entry : Bip32.Xpub S.toSecp256k1 × KeySource) : Prop :=
  ∃ source2, xpubs[entry.1]? = some source2 ∧ ¬Flawed entry.2 source2 ∧ chooseSource entry.2 source2 = none

/-- Where the map has the same source at the key of an entry, the entry fares the same. -/
theorem flawedAt_congr {entry : Bip32.Xpub S.toSecp256k1 × KeySource} (h : xpubs'[entry.1]? = xpubs[entry.1]?) :
    FlawedAt xpubs' entry ↔ FlawedAt xpubs entry := by
  unfold FlawedAt
  rw [h]

theorem refusedAt_congr {entry : Bip32.Xpub S.toSecp256k1 × KeySource}
    (h : xpubs'[entry.1]? = xpubs[entry.1]?) : RefusedAt xpubs' entry ↔ RefusedAt xpubs entry := by
  unfold RefusedAt
  rw [h]

/-- Before every flawed entry there is one that is refused. -/
def Guarded (xpubs : BTreeMap (Bip32.Xpub S.toSecp256k1) KeySource)
    (entries : List (Bip32.Xpub S.toSecp256k1 × KeySource)) : Prop :=
  ∀ entry ∈ entries, FlawedAt xpubs entry → ∃ entry' ∈ entries, entry'.1 < entry.1 ∧ RefusedAt xpubs entry'

theorem guarded_cons_of_refused {entry : Bip32.Xpub S.toSecp256k1 × KeySource}
    {entries : List (Bip32.Xpub S.toSecp256k1 × KeySource)} (hsorted : ∀ e ∈ entries, entry.1 < e.1)
    (h : RefusedAt xpubs entry) : Guarded xpubs (entry :: entries) := by
  intro e he hflawed
  rcases List.mem_cons.1 he with rfl | he
  · obtain ⟨source2, hget, hsound, -⟩ := h
    obtain ⟨source2', hget', hflawed⟩ := hflawed
    rw [Option.some.inj (hget'.symm.trans hget)] at hflawed
    exact absurd hflawed hsound
  · exact ⟨entry, List.mem_cons_self, hsorted e he, h⟩

/-- A first entry that is merged guards nothing. -/
theorem guarded_cons_of_merged {source : KeySource} {entries : List (Bip32.Xpub S.toSecp256k1 × KeySource)}
    (hsorted : ∀ e ∈ entries, xpub < e.1) (hflawed : ¬FlawedAt xpubs (xpub, source))
    (h : mergeXpub xpubs xpub source = .ok xpubs') :
    Guarded xpubs ((xpub, source) :: entries) ↔ Guarded xpubs' entries := by
  have hget : ∀ e ∈ entries, xpubs'[e.1]? = xpubs[e.1]? :=
    fun e he => getElem?_mergeXpub h (hsorted e he).ne
  have hmerged : ¬RefusedAt xpubs (xpub, source) := by
    rintro ⟨source2, hget, hsound, hchoose⟩
    rw [mergeXpub_eq_documentedMerge fun s hs => by rwa [← Option.some.inj (hget.symm.trans hs)],
      documentedMerge, hget] at h
    dsimp only at h hchoose
    rw [hchoose] at h
    cases h
  constructor
  · intro hguarded e he hbad
    rw [flawedAt_congr (hget e he)] at hbad
    obtain ⟨e', he', hlt, hrefused⟩ := hguarded e (List.mem_cons_of_mem _ he) hbad
    rcases List.mem_cons.1 he' with rfl | he'
    · exact absurd hrefused hmerged
    · exact ⟨e', he', hlt, (refusedAt_congr (hget e' he')).2 hrefused⟩
  · intro hguarded e he hbad
    rcases List.mem_cons.1 he with rfl | he
    · exact absurd hbad hflawed
    · obtain ⟨e', he', hlt, hrefused⟩ := hguarded e he ((flawedAt_congr (hget e he)).2 hbad)
      exact ⟨e', List.mem_cons_of_mem _ he', hlt, (refusedAt_congr (hget e' he')).1 hrefused⟩

/-- A run goes as documented exactly if flawed entries are guarded. -/
theorem mergeAll_eq_iff {entries : List (Bip32.Xpub S.toSecp256k1 × KeySource)}
    (hsorted : entries.Pairwise fun a b => a.1 < b.1) :
    mergeAll mergeXpub entries xpubs = mergeAll documentedMerge entries xpubs ↔ Guarded xpubs entries := by
  induction entries generalizing xpubs with
  | nil => exact iff_of_true rfl fun e he => by cases he
  | cons entry entries ih =>
    obtain ⟨xpub, source⟩ := entry
    rw [List.pairwise_cons] at hsorted
    by_cases hflawed : FlawedAt xpubs (xpub, source)
    · -- the documented run stops here with an error that names the key
      apply iff_of_false
      · obtain ⟨source2, hget, hbad⟩ := hflawed
        have hdocumented : mergeAll documentedMerge ((xpub, source) :: entries) xpubs =
            (xpubs, .err (.combineInconsistentKeySources xpub)) := by
          rw [mergeAll, documentedMerge, hget]
          dsimp only
          rw [chooseSource_of_flawed hbad]
        rw [hdocumented, mergeAll]
        intro h
        rcases mergeXpub_of_flawed hget hbad with hrun | hrun
        · rw [hrun] at h
          obtain ⟨e, he, hkey⟩ := mem_of_mergeAll_eq_err (congrArg Prod.snd h)
          exact absurd hkey (hsorted.1 e he).ne'
        · rw [hrun] at h
          cases congrArg Prod.snd h
      · intro hguarded
        obtain ⟨e, he, hlt, -⟩ := hguarded _ List.mem_cons_self hflawed
        rcases List.mem_cons.1 he with rfl | he
        · exact lt_irrefl _ hlt
        · exact lt_asymm hlt (hsorted.1 e he)
    · have hstep : mergeXpub xpubs xpub source = documentedMerge xpubs xpub source :=
        mergeXpub_eq_documentedMerge fun source2 hget hbad => hflawed ⟨source2, hget, hbad⟩
      rw [mergeAll, mergeAll, ← hstep]
      cases hrun : mergeXpub xpubs xpub source with
      | ok xpubs' =>
        rw [guarded_cons_of_merged hsorted.1 hflawed hrun]
        exact ih hsorted.2
      | err e =>
        obtain ⟨-, hrefused⟩ := mergeXpub_eq_err hrun
        exact iff_of_true rfl (guarded_cons_of_refused hsorted.1 hrefused)
      | panic p =>
        rw [hstep, documentedMerge] at hrun
        split at hrun
        · cases hrun
        · split at hrun <;> cases hrun

/-! ## Whole transactions -/

/-- `combine` with any turn of the loop over the extended keys. -/
def combineVia (merge : BTreeMap (Bip32.Xpub S.toSecp256k1) KeySource → Bip32.Xpub S.toSecp256k1 → KeySource →
      Outcome (Error S) (BTreeMap (Bip32.Xpub S.toSecp256k1) KeySource)) (slf other : Psbt S) :
    Psbt S × Outcome (Error S) Unit :=
  if slf.unsignedTx ≠ other.unsignedTx then
    (slf, .err (.unexpectedUnsignedTx slf.unsignedTx other.unsignedTx))
  else
    let slf := { slf with version := max slf.version other.version }
    let (xpub, result) := mergeAll merge other.xpub.toList slf.xpub
    let slf := { slf with xpub := xpub }
    match result with
    | .ok () =>
      ({ slf with
          proprietary := slf.proprietary.extend other.proprietary
          unknown := slf.unknown.extend other.unknown
          inputs := combineZip Input.combine slf.inputs other.inputs
          outputs := combineZip Output.combine slf.outputs other.outputs }, .ok ())
    | result => (slf, result)

theorem combine_eq_combineVia (slf other : Psbt S) : slf.combine other = combineVia mergeXpub slf other := by
  unfold combine combineVia
  dsimp only
  rewrite [mergeXpubs_eq]
  rfl

/-- Apart from the extended keys and the result of their loop, nothing depends on the turn. -/
theorem combineVia_fields (merge : BTreeMap (Bip32.Xpub S.toSecp256k1) KeySource →
      Bip32.Xpub S.toSecp256k1 → KeySource →
      Outcome (Error S) (BTreeMap (Bip32.Xpub S.toSecp256k1) KeySource)) {slf other : Psbt S}
    (htx : slf.unsignedTx = other.unsignedTx) :
    ((combineVia merge slf other).1.xpub, (combineVia merge slf other).2) =
      mergeAll merge other.xpub.toList slf.xpub := by
  unfold combineVia
  rw [if_neg (not_not.2 htx)]
  dsimp only
  generalize mergeAll merge other.xpub.toList slf.xpub = merged
  obtain ⟨xpub, result⟩ := merged
  cases result <;> rfl

/-- `combine` merges extended keys as documented exactly if, where the transactions are the same, every key
with flawed sources comes after one whose sources are refused. -/
theorem combine_eq_documented_iff (slf other : Psbt S) :
    slf.combine other = combineVia documentedMerge slf other ↔
      (slf.unsignedTx = other.unsignedTx → Guarded slf.xpub other.xpub.toList) := by
  rw [combine_eq_combineVia]
  by_cases htx : slf.unsignedTx = other.unsignedTx
  · rw [forall_prop_of_true htx, ← mergeAll_eq_iff other.xpub.pairwise_lt_toList]
    constructor
    · intro h
      rw [← combineVia_fields mergeXpub htx, ← combineVia_fields documentedMerge htx, h]
    · intro h
      unfold combineVia
      dsimp only
      rw [h]
  · refine iff_of_true ?_ fun h => absurd h htx
    unfold combineVia
    rw [if_pos htx, if_pos htx]

/-- An extended public key of the given depth. -/
def sampleXpubAt (depth : UInt8) : Bip32.Xpub KeyFormats.curve.toSecp256k1 :=
  ⟨.main, depth, U8Array.replicate 4 0, .normal 0, KeyFormats.base, U8Array.replicate 32 0⟩

/-- A transaction with one extended public key. -/
def sampleSource (source : KeySource) : Psbt .curve where
  unsignedTx := sampleTx
  xpub := (∅ : BTreeMap _ _).insert (sampleXpubAt 1) source

theorem toList_sampleSource (source : KeySource) :
    (sampleSource source).xpub.toList = [(sampleXpubAt 1, source)] :=
  List.perm_singleton.1 (BTreeMap.perm_toList_insert (m := ∅) (by simp) _)

theorem getElem?_sampleSource (source : KeySource) :
    (sampleSource source).xpub[sampleXpubAt 1]? = some source := by
  rw [← BTreeMap.mem_toList_iff, toList_sampleSource]
  exact List.mem_singleton_self _

/-- A run with one key that both transactions have. -/
theorem combineVia_sampleSource (merge : BTreeMap (Bip32.Xpub KeyFormats.curve.toSecp256k1) KeySource →
      Bip32.Xpub KeyFormats.curve.toSecp256k1 → KeySource →
      Outcome (Error .curve) (BTreeMap (Bip32.Xpub KeyFormats.curve.toSecp256k1) KeySource))
    (source source2 : KeySource) :
    (combineVia merge (sampleSource source2) (sampleSource source)).2 =
      (mergeAll merge [(sampleXpubAt 1, source)] (sampleSource source2).xpub).2 := by
  have htx : (sampleSource source2).unsignedTx = (sampleSource source).unsignedTx := rfl
  rw [← toList_sampleSource, ← combineVia_fields merge htx]

theorem combine_sampleSource (source source2 : KeySource) :
    ((sampleSource source2).combine (sampleSource source)).2 =
      (mergeAll mergeXpub [(sampleXpubAt 1, source)] (sampleSource source2).xpub).2 := by
  rw [combine_eq_combineVia, combineVia_sampleSource]

theorem documented_sampleSource {source source2 : KeySource} (h : chooseSource source source2 = none) :
    (combineVia documentedMerge (sampleSource source2) (sampleSource source)).2 =
      .err (.combineInconsistentKeySources (sampleXpubAt 1)) := by
  rw [combineVia_sampleSource, mergeAll, documentedMerge, getElem?_sampleSource]
  dsimp only
  rw [h]

/-- Where an error is documented, `combine` panics for a path that is shorter and no suffix, and returns for
another fingerprint. -/
theorem combine_ne_documented_sample :
    (((sampleSource (U8Array.replicate 4 0, [.normal 0, .normal 1])).combine
          (sampleSource (U8Array.replicate 4 0, [.normal 0]))).2 = .panic .overflow ∧
        (combineVia documentedMerge (sampleSource (U8Array.replicate 4 0, [.normal 0, .normal 1]))
          (sampleSource (U8Array.replicate 4 0, [.normal 0]))).2 =
            .err (.combineInconsistentKeySources (sampleXpubAt 1))) ∧
      ((sampleSource (U8Array.replicate 4 0, [.normal 0])).combine
          (sampleSource (U8Array.replicate 4 1, [.normal 0]))).2 = .ok () ∧
        (combineVia documentedMerge (sampleSource (U8Array.replicate 4 0, [.normal 0]))
          (sampleSource (U8Array.replicate 4 1, [.normal 0]))).2 =
            .err (.combineInconsistentKeySources (sampleXpubAt 1)) := by
  refine ⟨⟨?_, documented_sampleSource (by decide)⟩, ?_, documented_sampleSource (by decide)⟩
  · rw [combine_sampleSource, mergeAll, mergeXpub_of_some (getElem?_sampleSource _), if_neg (by decide),
      if_pos (by decide)]
  · rw [combine_sampleSource, mergeAll, mergeXpub_of_some (getElem?_sampleSource _), if_neg (by decide),
      if_neg (by decide), if_pos (by decide)]
    rfl

/-! ## What an error leaves -/

/-- A run that ends with an error has merged the keys before the one that the error names. -/
theorem merged_of_mergeAll_eq_err {entries : List (Bip32.Xpub S.toSecp256k1 × KeySource)}
    (hsorted : entries.Pairwise fun a b => a.1 < b.1) {e : Error S}
    (h : mergeAll mergeXpub entries xpubs = (xpubs', .err e)) :
    ∃ xpub, e = .combineInconsistentKeySources xpub ∧ (∀ k, xpub ≤ k → xpubs'[k]? = xpubs[k]?) ∧
      ∀ k, k < xpub → Merged xpubs[k]? (entries.lookup k) xpubs'[k]? := by
  induction entries generalizing xpubs with
  | nil => cases h
  | cons entry entries ih =>
    obtain ⟨k₀, source⟩ := entry
    rw [List.pairwise_cons] at hsorted
    rw [mergeAll] at h
    cases hstep : mergeXpub xpubs k₀ source with
    | ok xpubs₁ =>
      rw [hstep] at h
      obtain ⟨xpub, rfl, hsame, hmerged⟩ := ih hsorted.2 h
      obtain ⟨entry, hentry, rfl⟩ := mem_of_mergeAll_eq_err (congrArg Prod.snd h)
      have hlt : k₀ < entry.1 := hsorted.1 entry hentry
      refine ⟨entry.1, rfl, ?_, ?_⟩
      · intro k hk
        rw [hsame k hk, getElem?_mergeXpub hstep (hlt.trans_le hk).ne]
      · intro k hk
        exact BTreeMap.merged_cons (fun e he => (hsorted.1 e he).ne) (merged_mergeXpub hstep k) (hmerged k hk)
    | err e' =>
      rw [hstep] at h
      cases h
      obtain ⟨rfl, -⟩ := mergeXpub_eq_err hstep
      refine ⟨k₀, rfl, fun _ _ => rfl, fun k hk => ?_⟩
      rw [BTreeMap.lookup_eq_none_of_ne]
      · exact Or.inr rfl
      · intro entry hentry
        rcases List.mem_cons.1 hentry with rfl | hentry
        · exact hk.ne
        · exact (hk.trans (hsorted.1 entry hentry)).ne
    | panic p =>
      rw [hstep] at h
      cases h

/-- What `combine` leaves of `self` when it returns an error: everything, where the unsigned transactions
differ; otherwise the version is raised and the extended keys before the inconsistent one are merged. -/
theorem combine_eq_err (slf other : Psbt S) (e : Error S) (h : (slf.combine other).2 = .err e) :
    (e = .unexpectedUnsignedTx slf.unsignedTx other.unsignedTx ∧ (slf.combine other).1 = slf) ∨
      ∃ xpub, e = .combineInconsistentKeySources xpub ∧
        (slf.combine other).1 =
          { slf with version := max slf.version other.version, xpub := (slf.combine other).1.xpub } ∧
        (∀ k, xpub ≤ k → (slf.combine other).1.xpub[k]? = slf.xpub[k]?) ∧
        ∀ k, k < xpub → Merged slf.xpub[k]? other.xpub[k]? (slf.combine other).1.xpub[k]? := by
  by_cases htx : slf.unsignedTx = other.unsignedTx
  · right
    have hfields := combineVia_fields mergeXpub htx
    rw [← combine_eq_combineVia, h] at hfields
    obtain ⟨xpub, rfl, hsame, hmerged⟩ :=
      merged_of_mergeAll_eq_err other.xpub.pairwise_lt_toList hfields.symm
    refine ⟨xpub, rfl, ?_, hsame, ?_⟩
    · have hrun : mergeXpubs other.xpub.toList slf.xpub = ((slf.combine other).1.xpub,
          .err (.combineInconsistentKeySources xpub)) := by rw [mergeXpubs_eq, ← hfields]
      conv_lhs => unfold combine
      rw [if_neg (not_not.2 htx)]
      dsimp only
      rw [hrun]
    · intro k hk
      rw [← other.xpub.lookup_toList]
      exact hmerged k hk
  · left
    unfold combine at h ⊢
    rw [if_pos htx] at h ⊢
    cases h
    exact ⟨rfl, rfl⟩

/-- A transaction with one extended public key, whose path has one child number. -/
def sampleSelf : Psbt .curve := sampleSource (U8Array.replicate 4 0, [.normal 0])

/-- A transaction with another path for this key, and with a key before it. -/
def sampleOther : Psbt .curve where
  unsignedTx := sampleTx
  xpub := ((∅ : BTreeMap _ _).insert (sampleXpubAt 1) (U8Array.replicate 4 0, [.normal 1])).insert
    (sampleXpubAt 0) (U8Array.replicate 4 0, [])

theorem toList_sampleOther : sampleOther.xpub.toList =
    [(sampleXpubAt 0, U8Array.replicate 4 0, []), (sampleXpubAt 1, U8Array.replicate 4 0, [.normal 1])] := by
  decide +kernel

theorem sampleXpubAt_ne : sampleXpubAt 0 ≠ sampleXpubAt 1 := by
  intro h
  cases congrArg Bip32.Xpub.depth h

/-- The new key is inserted before the other is found inconsistent. -/
theorem combine_sampleSelf :
    (sampleSelf.combine sampleOther).1.xpub =
        sampleSelf.xpub.insert (sampleXpubAt 0) (U8Array.replicate 4 0, []) ∧
      (sampleSelf.combine sampleOther).2 = .err (.combineInconsistentKeySources (sampleXpubAt 1)) := by
  have htx : sampleSelf.unsignedTx = sampleOther.unsignedTx := rfl
  have hfields := combineVia_fields mergeXpub htx
  have hnone : sampleSelf.xpub[sampleXpubAt 0]? = none := by
    rw [← BTreeMap.lookup_toList, sampleSelf, toList_sampleSource]
    exact BTreeMap.lookup_eq_none_of_ne (by simpa using sampleXpubAt_ne)
  have hsome : (sampleSelf.xpub.insert (sampleXpubAt 0) (U8Array.replicate 4 0, []))[sampleXpubAt 1]? =
      some (U8Array.replicate 4 0, [.normal 0]) := by
    rw [BTreeMap.getElem?_insert, if_neg sampleXpubAt_ne, sampleSelf, getElem?_sampleSource]
  have hvacant : mergeXpub sampleSelf.xpub (sampleXpubAt 0) (U8Array.replicate 4 0, []) =
      .ok (sampleSelf.xpub.insert (sampleXpubAt 0) (U8Array.replicate 4 0, [])) := by
    unfold mergeXpub
    rw [hnone]
  rw [← combine_eq_combineVia, toList_sampleOther, mergeAll, hvacant] at hfields
  dsimp only at hfields
  rw [mergeAll, mergeXpub_of_some hsome, if_neg (by decide), if_neg (by decide), if_neg (by decide)] at hfields
  exact Prod.mk.inj hfields

theorem combine_eq_err_sample :
    (sampleSelf.combine sampleOther).2 = .err (.combineInconsistentKeySources (sampleXpubAt 1)) ∧
      (sampleSelf.combine sampleOther).1.xpub[sampleXpubAt 1]? = sampleSelf.xpub[sampleXpubAt 1]? := by
  refine ⟨combine_sampleSelf.2, ?_⟩
  rcases combine_eq_err _ _ _ combine_sampleSelf.2 with ⟨herror, -⟩ | ⟨xpub, herror, -, hsame, -⟩
  · cases herror
  · cases herror
    exact hsame _ le_rfl

/-- An error has left an extended key behind that was not there before. -/
theorem combine_err_changes_sample :
    (sampleSelf.combine sampleOther).2 = .err (.combineInconsistentKeySources (sampleXpubAt 1)) ∧
      (sampleSelf.combine sampleOther).1 ≠ sampleSelf := by
  refine ⟨combine_sampleSelf.2, fun h => ?_⟩
  have hget : (sampleSelf.xpub.insert (sampleXpubAt 0) (U8Array.replicate 4 0, []))[sampleXpubAt 0]? =
      sampleSelf.xpub[sampleXpubAt 0]? := by
    rw [← combine_sampleSelf.1, h]
  rw [BTreeMap.getElem?_insert, if_pos rfl, eq_comm, ← BTreeMap.mem_toList_iff, sampleSelf,
    toList_sampleSource, List.mem_singleton] at hget
  exact sampleXpubAt_ne (congrArg Prod.fst hget)

end Psbt

end RustDogecoin
