import RustDogecoin.Blockdata.WitnessOps
import RustDogecoin.Crypto.Sighash
import RustDogecoin.Lib.TreeProof
import RustDogecoin.Taproot.SpendInfo

/-!
# Taproot spends

`P2TrSpend::from_witness` and the accessors of a witness that rest on it: the leaf script with its version, the
control block and the annex.  A witness that ends with a script of the tree, its control block and perhaps an
annex is read as what it is, and its control block passes the check (`script_spend_arrives`): the first byte of
a control block is never that of an annex, because no leaf version is.

Conversely, the check accepts nothing else (`verifyTaprootCommitment_iff`): for the internal key of the tree,
control blocks that pass are those of the leaves of the tree, with their own branches.
-/

namespace RustDogecoin

open DepthFirst

/-! ## Reading a witness -/

namespace WitnessRepr

/-- `Option::expect`. -/
def expectSome {ε α : Type} : Option α → Outcome ε α
  | some a => .ok a
  | none => .panic .unwrap

/-- `P2TrSpend`. -/
inductive P2TrSpend where
  | key (annex : Option Bytes)
  | script (leafScript controlBlock : Bytes) (annex : Option Bytes)
  deriving DecidableEq, Repr

/-- `starts_with(&[TAPROOT_ANNEX_PREFIX])`. -/
def startsWithAnnexPrefix (element : Bytes) : Bool := [Taproot.TAPROOT_ANNEX_PREFIX].isPrefixOf element

/-- `P2TrSpend::from_witness`. -/
def P2TrSpend.fromWitness (w : WitnessRepr) : Outcome Empty (Option P2TrSpend) := do
  match w.len with
  | 0 => return none
  | 1 => return some (.key none)
  | len =>
    let last ← expectSome (← w.last)
    if startsWithAnnexPrefix last then
      if len = 2 then return some (.key (some last))
      else
        let leafScript ← expectSome (← w.thirdToLast)
        let controlBlock ← expectSome (← w.secondToLast)
        return some (.script leafScript controlBlock (some last))
    else
      let leafScript ← expectSome (← w.secondToLast)
      return some (.script leafScript last none)

/-- `P2TrSpend::annex`. -/
def P2TrSpend.annex : P2TrSpend → Option Bytes
  | key annex => annex
  | script _ _ annex => annex

/-- `LeafScript`. -/
structure LeafScript where
  version : Taproot.LeafVersion
  script : Bytes
  deriving DecidableEq, Repr

/-- `Witness::tapscript`. -/
def tapscript (w : WitnessRepr) : Outcome Empty (Option Bytes) := do
  match ← P2TrSpend.fromWitness w with
  | some (.script leafScript _ _) => return some leafScript
  | _ => return none

/-- `Witness::taproot_leaf_script`. -/
def taprootLeafScript (w : WitnessRepr) : Outcome Empty (Option LeafScript) := do
  match ← P2TrSpend.fromWitness w with
  | some (.script leafScript controlBlock _) =>
    if Taproot.TAPROOT_CONTROL_BASE_SIZE ≤ controlBlock.length then
      match Taproot.LeafVersion.fromConsensus (controlBlock.headD 0 &&& Taproot.TAPROOT_LEAF_MASK) with
      | .ok version => return some ⟨version, leafScript⟩
      | .err _ => return none
      | .panic p => .panic p
    else return none
  | _ => return none

/-- `Witness::taproot_control_block`. -/
def taprootControlBlock (w : WitnessRepr) : Outcome Empty (Option Bytes) := do
  match ← P2TrSpend.fromWitness w with
  | some (.script _ controlBlock _) => return some controlBlock
  | _ => return none

/-- `Witness::taproot_annex`. -/
def taprootAnnex (w : WitnessRepr) : Outcome Empty (Option Bytes) := do
  match ← P2TrSpend.fromWitness w with
  | some spend => return spend.annex
  | none => return none

/-- The spend that a stack is read as, the top of the stack first. -/
def P2TrSpend.ofStack : List Bytes → Option P2TrSpend
  | [] => none
  | [_] => some (.key none)
  | [last, second] =>
    if startsWithAnnexPrefix last then some (.key (some last)) else some (.script second last none)
  | last :: second :: third :: _ =>
    if startsWithAnnexPrefix last then some (.script third second (some last)) else some (.script second last none)

/-- How a witness is read depends on its elements only. -/
theorem Holds.fromWitness_eq {w : WitnessRepr} {elems : List Bytes} (hw : w.Holds elems) :
    P2TrSpend.fromWitness w = .ok (P2TrSpend.ofStack elems.reverse) := by
  have hlen : w.len = elems.reverse.length := by rw [List.length_reverse, ← hw.witnessElements_eq, len]
  have hlast : w.last = .ok elems.reverse[0]? := by
    rw [hw.last_eq, List.getLast?_eq_head?_reverse, List.head?_eq_getElem?]
  have hsecond : w.secondToLast = .ok elems.reverse[1]? := hw.fromEnd_eq 1
  have hthird : w.thirdToLast = .ok elems.reverse[2]? := hw.fromEnd_eq 2
  unfold P2TrSpend.fromWitness
  rw [hlen, hlast, hsecond, hthird]
  generalize elems.reverse = stack
  match stack with
  | [] => rfl
  | [_] => rfl
  | [last, second] =>
    cases hannex : startsWithAnnexPrefix last <;> simp [P2TrSpend.ofStack, expectSome, hannex]
  | last :: second :: third :: rest =>
    cases hannex : startsWithAnnexPrefix last <;> simp [P2TrSpend.ofStack, expectSome, hannex]

end WitnessRepr

namespace Taproot

variable {S : KeyFormats} {secp : XOnlyTweaks S} {internalKey : S.XOnlyPublicKey} {node : NodeInfo}
  {info : TaprootSpendInfo S}

/-! ## Spends that are made -/

theorem LeafVersion.toConsensus_ne_annex (v : LeafVersion) : v.toConsensus ≠ TAPROOT_ANNEX_PREFIX := by
  cases v with
  | tapScript => decide
  | future v => exact v.ne_annex

/-- No control block is taken for an annex. -/
theorem ControlBlock.startsWithAnnexPrefix_serialize (cb : ControlBlock S) :
    WitnessRepr.startsWithAnnexPrefix cb.serialize = false := by
  obtain ⟨-, hmask⟩ := parity_or_version cb.outputKeyParity cb.leafVersion
  have hne : TAPROOT_ANNEX_PREFIX ≠ cb.outputKeyParity.toU8 ||| cb.leafVersion.toConsensus := by
    intro heq
    rw [← heq] at hmask
    exact cb.leafVersion.toConsensus_ne_annex (hmask.symm.trans (by decide))
  rw [WitnessRepr.startsWithAnnexPrefix, ControlBlock.serialize, List.isPrefixOf_cons_cons, beq_eq_false_iff_ne.2 hne,
    Bool.false_and]

/-- A witness that ends with a script, a control block and perhaps an annex. -/
def spendElements (args : List Bytes) (script : Bytes) (cb : ControlBlock S) (annex : Option Sighash.Annex) :
    List Bytes :=
  args ++ [script, cb.serialize] ++ (annex.map fun a => a.bytes).toList

theorem startsWithAnnexPrefix_annex (annex : Sighash.Annex) :
    WitnessRepr.startsWithAnnexPrefix annex.bytes = true := by
  obtain ⟨b, bs, hbytes⟩ : ∃ b bs, annex.bytes = b :: bs := by
    cases h : annex.bytes with
    | nil => exact absurd annex.head_eq (by simp [h])
    | cons b bs => exact ⟨b, bs, rfl⟩
  have hhead := annex.head_eq
  rw [hbytes, List.head?_cons, Option.some_inj] at hhead
  rw [WitnessRepr.startsWithAnnexPrefix, hbytes, List.isPrefixOf_cons_cons, hhead, beq_self_eq_true, Bool.true_and]
  exact List.isPrefixOf_nil_left

theorem ofStack_spendElements (args : List Bytes) (script : Bytes) (cb : ControlBlock S)
    (annex : Option Sighash.Annex) :
    WitnessRepr.P2TrSpend.ofStack (spendElements args script cb annex).reverse =
      some (.script script cb.serialize (annex.map fun a => a.bytes)) := by
  cases annex with
  | none =>
    have hstack : (spendElements args script cb none).reverse = cb.serialize :: script :: args.reverse := by
      simp [spendElements]
    rw [hstack]
    cases args.reverse <;> simp [WitnessRepr.P2TrSpend.ofStack, cb.startsWithAnnexPrefix_serialize]
  | some annex =>
    have hstack : (spendElements args script cb (some annex)).reverse =
        annex.bytes :: cb.serialize :: script :: args.reverse := by
      simp [spendElements]
    rw [hstack]
    simp [WitnessRepr.P2TrSpend.ofStack, startsWithAnnexPrefix_annex]

/-- A witness with a script of the tree, the control block that `control_block` returns for it, any arguments and
perhaps an annex is read as what it is, and its control block passes the check against the output key. -/
theorem script_spend_arrives (hS : S.Lawful) (hsecp : secp.Lawful) (hnode : Built node)
    (hinfo : TaprootSpendInfo.fromNodeInfo secp internalKey node = .ok info) {key : ScriptVer} {cb : ControlBlock S}
    (hcb : info.controlBlock key = .ok (some cb)) (args : List Bytes) (annex : Option Sighash.Annex)
    {w : WitnessRepr} (hw : WitnessRepr.fromSlice (spendElements args key.script cb annex) = .ok w) :
    w.taprootLeafScript = .ok (some ⟨key.ver, key.script⟩) ∧
      w.taprootControlBlock = .ok (some cb.serialize) ∧
      w.taprootAnnex = .ok (annex.map fun a => a.bytes) ∧
      ControlBlock.decode cb.serialize = .ok cb ∧
      cb.verifyTaprootCommitment secp info.outputKey key.script = .ok true := by
  have hspend := (WitnessRepr.holds_of_fromSlice hw).fromWitness_eq
  rw [ofStack_spendElements] at hspend
  have hlen : TAPROOT_CONTROL_BASE_SIZE ≤ cb.serialize.length := by
    rw [cb.length_serialize, TAPROOT_CONTROL_BASE_SIZE]
    omega
  have hhead : cb.serialize.headD 0 = cb.outputKeyParity.toU8 ||| cb.leafVersion.toConsensus := rfl
  have hversion : cb.leafVersion = key.ver := by
    rcases TaprootSpendInfo.controlBlock_fromNodeInfo hinfo key with ⟨l, -, -, hok, -⟩ | ⟨-, hnone⟩
    · cases hok.symm.trans hcb
      rfl
    · cases hnone.symm.trans hcb
  refine ⟨?_, ?_, ?_, cb.decode_serialize hS, verifyTaprootCommitment_controlBlock hsecp hnode hinfo hcb⟩
  · rw [WitnessRepr.taprootLeafScript, hspend, Outcome.ok_bind]
    dsimp only
    rw [if_pos hlen, hhead, (parity_or_version _ _).2, LeafVersion.fromConsensus_toConsensus, hversion]
    rfl
  · rw [WitnessRepr.taprootControlBlock, hspend, Outcome.ok_bind]
    rfl
  · rw [WitnessRepr.taprootAnnex, hspend, Outcome.ok_bind]
    rfl

/-! ## The leaves of a node and their proofs -/

/-- The leaves of a node with their branches. -/
def NodeInfo.proofs (n : NodeInfo) : List (TapLeaf × List TapNodeHash) :=
  n.leaves.map fun l => (l.leaf, l.merkleBranch.hashes)

theorem proofs_of_isPushed {partner : TapNodeHash} {leaves leaves' : List LeafNode}
    (h : List.Forall₂ (IsPushed partner) leaves leaves') :
    (leaves'.map fun l => (l.leaf, l.merkleBranch.hashes)) =
      (leaves.map fun l => (l.leaf, l.merkleBranch.hashes)).map fun p => (p.1, p.2 ++ [partner]) := by
  induction h with
  | nil => rfl
  | cons hl _ ih => simp [ih, hl.leaf_eq, hl.hashes_eq]

/-- Joining nodes appends to every branch the hash of the other node. -/
theorem NodeInfo.of_combine {a b n : NodeInfo} (h : NodeInfo.combine b a = .ok n) :
    n.hash = TapNodeHash.fromNodeHashes a.hash b.hash ∧
      n.hasHiddenNodes = (a.hasHiddenNodes || b.hasHiddenNodes) ∧ ∀ p, p ∈ n.proofs ↔
        p ∈ a.proofs.map (fun p => (p.1, p.2 ++ [b.hash])) ∨ p ∈ b.proofs.map fun p => (p.1, p.2 ++ [a.hash]) := by
  have hsides : ∀ (x y : NodeInfo) (hash : TapNodeHash), (do
      let xLeaves ← pushPartner y.hash x.leaves
      let yLeaves ← pushPartner x.hash y.leaves
      return (⟨hash, xLeaves ++ yLeaves, x.hasHiddenNodes || y.hasHiddenNodes⟩ : NodeInfo)) = .ok n →
      n.hash = hash ∧ n.hasHiddenNodes = (x.hasHiddenNodes || y.hasHiddenNodes) ∧ ∀ p, p ∈ n.proofs ↔
        p ∈ x.proofs.map (fun p => (p.1, p.2 ++ [y.hash])) ∨ p ∈ y.proofs.map fun p => (p.1, p.2 ++ [x.hash]) := by
    intro x y hash h
    obtain ⟨xLeaves, hx, h⟩ := Outcome.bind_eq_ok_iff.1 h
    obtain ⟨yLeaves, hy, h⟩ := Outcome.bind_eq_ok_iff.1 h
    cases h
    refine ⟨rfl, rfl, fun p => ?_⟩
    rw [proofs, List.map_append, List.mem_append, proofs_of_isPushed (isPushed_of_pushPartner hx),
      proofs_of_isPushed (isPushed_of_pushPartner hy), proofs, proofs]
  have hhash : (TapNodeHash.combineNodeHashes b.hash a.hash).1 = TapNodeHash.fromNodeHashes a.hash b.hash :=
    TapNodeHash.fromNodeHashes_comm b.hash a.hash
  -- the leaves of the smaller hash come first
  by_cases hlt : b.hash.toList < a.hash.toList
  · have hcombine : TapNodeHash.combineNodeHashes b.hash a.hash =
        (TapNodeHash.fromNodeHashes a.hash b.hash, true) := Prod.ext hhash (by
      simp [TapNodeHash.combineNodeHashes, hlt])
    rw [combine, hcombine] at h
    obtain ⟨hn, hhidden, hproofs⟩ := hsides b a _ h
    exact ⟨hn, hhidden.trans (Bool.or_comm _ _), fun p => (hproofs p).trans or_comm⟩
  · have hcombine : TapNodeHash.combineNodeHashes b.hash a.hash =
        (TapNodeHash.fromNodeHashes a.hash b.hash, false) := Prod.ext hhash (by
      simp [TapNodeHash.combineNodeHashes, hlt])
    rw [combine, hcombine] at h
    exact hsides a b _ h

/-- The leaves of a node are the known leaves of its tree, with their proofs. -/
theorem mem_proofs_iff {t : LeafTree TapLeaf} {n : NodeInfo} (h : nodeOf t = .ok n) :
    n.hash = t.root TapLeaf.nodeHash TapNodeHash.fromNodeHashes ∧
      n.hasHiddenNodes = t.leaves.any TapLeaf.isHidden ∧ ∀ p, p ∈ n.proofs ↔
        p ∈ t.proofs TapLeaf.nodeHash TapNodeHash.fromNodeHashes ∧ p.1.isHidden = false := by
  induction t generalizing n with
  | leaf leaf =>
    cases h
    cases leaf with
    | script s ver =>
      refine ⟨rfl, rfl, fun p => ?_⟩
      show p ∈ [(TapLeaf.script s ver, [])] ↔ p ∈ [(TapLeaf.script s ver, [])] ∧ p.1.isHidden = false
      rw [List.mem_singleton, iff_self_and]
      rintro rfl
      rfl
    | hidden hash =>
      refine ⟨rfl, rfl, fun p => iff_of_false List.not_mem_nil ?_⟩
      rintro ⟨hp, hhidden⟩
      obtain rfl := List.mem_singleton.1 hp
      cases hhidden
  | node l r ihl ihr =>
    obtain ⟨left, hl, h⟩ := Outcome.bind_eq_ok_iff.1 h
    obtain ⟨right, hr, h⟩ := Outcome.bind_eq_ok_iff.1 h
    obtain ⟨hlhash, hlhidden, hlproofs⟩ := ihl hl
    obtain ⟨hrhash, hrhidden, hrproofs⟩ := ihr hr
    obtain ⟨hhash, hhidden, hproofs⟩ := NodeInfo.of_combine h
    refine ⟨by rw [hhash, hlhash, hrhash, LeafTree.root], ?_, fun p => ?_⟩
    · rw [hhidden, hlhidden, hrhidden, LeafTree.leaves_node, List.any_append]
    rw [hproofs, LeafTree.proofs, List.mem_append, or_and_right, ← hlhash, ← hrhash]
    have hside : ∀ (x : NodeInfo) (xs : List (TapLeaf × List TapNodeHash)) (partner : TapNodeHash),
        (∀ p, p ∈ x.proofs ↔ p ∈ xs ∧ p.1.isHidden = false) →
        (p ∈ x.proofs.map (fun p => (p.1, p.2 ++ [partner])) ↔
          p ∈ xs.map (fun p => (p.1, p.2 ++ [partner])) ∧ p.1.isHidden = false) := by
      intro x xs partner hx
      simp only [List.mem_map, hx]
      constructor
      · rintro ⟨q, ⟨hq, hhidden⟩, rfl⟩
        exact ⟨⟨q, hq, rfl⟩, hhidden⟩
      · rintro ⟨⟨q, hq, rfl⟩, hhidden⟩
        exact ⟨q, ⟨hq, hhidden⟩, rfl⟩
    exact or_congr (hside _ _ _ hlproofs) (hside _ _ _ hrproofs)

/-! ## What the check accepts -/

/-- A tag and a message. -/
abbrev Tagged := Bytes × Bytes

def Tagged.hash (m : Tagged) : U8Array 32 := Sha256t.taggedHash m.1 m.2

/-- What is hashed for a leaf. -/
def leafMessage (script : Bytes) (ver : LeafVersion) : Tagged :=
  (asBytes "TapLeaf", ver.toConsensus :: elementBytes script)

/-- What is hashed for an inner node. -/
def branchMessage (q : TapNodeHash × TapNodeHash) : Tagged :=
  (asBytes "TapBranch", if q.1.toList < q.2.toList then q.1.toList ++ q.2.toList else q.2.toList ++ q.1.toList)

/-- What is hashed for a tweak. -/
def tweakMessage (internalKey : S.XOnlyPublicKey) (root : TapNodeHash) : Tagged :=
  (asBytes "TapTweak", (S.xOnlySerialize internalKey).toList ++ root.toList)

theorem fromScript_eq_hash (script : Bytes) (ver : LeafVersion) :
    TapLeafHash.fromScript script ver = (leafMessage script ver).hash := TapLeafHash.fromScript_eq script ver

theorem fromNodeHashes_eq_hash (q : TapNodeHash × TapNodeHash) :
    TapNodeHash.fromNodeHashes q.1 q.2 = (branchMessage q).hash := TapNodeHash.fromNodeHashes_eq q.2 q.1

theorem tapTweakHash_eq_hash (internalKey : S.XOnlyPublicKey) (root : TapNodeHash) :
    tapTweakHash internalKey (some root) = (tweakMessage internalKey root).hash := by
  have htag : Sha256.hashTag (asBytes "TapTweak") = Sha256.HashEngine.midstate
      (Sha256.HashEngine.input .default
        ((Sha256.hash (asBytes "TapTweak")).toList ++ (Sha256.hash (asBytes "TapTweak")).toList)) := by
    decide +kernel
  rw [tapTweakHash, ← Sha256.input_append _ _ _ (length_buffer_engine _), Sha256t.fromEngine_engine _ _ htag]
  rfl

theorem elementBytes_injective : Function.Injective elementBytes := by
  intro element element' h
  obtain ⟨hlen, -⟩ := Prod.mk.inj (Outcome.ok.inj
    ((VarInt.roundTrips _ _ trivial rfl element).symm.trans
      ((congrArg VarInt.consensusDecode.run h).trans (VarInt.roundTrips _ _ trivial rfl element'))))
  have hlen' : UInt64.ofNat element.length = UInt64.ofNat element'.length := congrArg VarInt.val hlen
  unfold elementBytes at h
  rw [hlen'] at h
  exact List.append_cancel_left h

theorem leafMessage_injective {script script' : Bytes} {ver ver' : LeafVersion}
    (h : leafMessage script ver = leafMessage script' ver') : script = script' ∧ ver = ver' := by
  obtain ⟨hver, helement⟩ := List.cons.inj (congrArg Prod.snd h)
  refine ⟨elementBytes_injective helement, ?_⟩
  have hok := LeafVersion.fromConsensus_toConsensus ver
  rw [hver, LeafVersion.fromConsensus_toConsensus] at hok
  exact (Outcome.ok.inj hok).symm

theorem branchMessage_cases {p q : TapNodeHash × TapNodeHash} (h : branchMessage p = branchMessage q) :
    p = q ∨ p = q.swap := by
  obtain ⟨a, b⟩ := p
  obtain ⟨c, d⟩ := q
  have hpair : ∀ {a b c d : TapNodeHash}, a.toList ++ b.toList = c.toList ++ d.toList → a = c ∧ b = d := by
    intro a b c d h
    obtain ⟨hl, hr⟩ := List.append_inj h (by rw [a.length_eq, c.length_eq])
    exact ⟨U8Array.ext hl, U8Array.ext hr⟩
  have hbytes := congrArg Prod.snd h
  simp only [branchMessage] at hbytes
  split_ifs at hbytes
  all_goals
    obtain ⟨rfl, rfl⟩ := hpair hbytes
    simp

/-- The root of a script tree, as the code computes it. -/
abbrev treeRoot (t : LeafTree TapLeaf) : TapNodeHash := t.root TapLeaf.nodeHash TapNodeHash.fromNodeHashes

/-- Where a control block leads to from a script. -/
def ControlBlock.climb (cb : ControlBlock S) (script : Bytes) : TapNodeHash :=
  LeafTree.climb TapNodeHash.fromNodeHashes (TapLeafHash.fromScript script cb.leafVersion) cb.merkleBranch.hashes

/-- What is hashed for a tree, and to check a control block against it. -/
inductive Hashed (t : LeafTree TapLeaf) (cb : ControlBlock S) (script : Bytes) : Tagged → Prop
  | leaf {s : Bytes} {ver : LeafVersion} (h : TapLeaf.script s ver ∈ t.leaves) : Hashed t cb script (leafMessage s ver)
  | node {q : TapNodeHash × TapNodeHash} (h : q ∈ t.pairs TapLeaf.nodeHash TapNodeHash.fromNodeHashes) :
    Hashed t cb script (branchMessage q)
  | root : Hashed t cb script (tweakMessage cb.internalKey (treeRoot t))
  | script : Hashed t cb script (leafMessage script cb.leafVersion)
  | climb {q : TapNodeHash × TapNodeHash} (h : q ∈ LeafTree.climbPairs TapNodeHash.fromNodeHashes
      (TapLeafHash.fromScript script cb.leafVersion) cb.merkleBranch.hashes) : Hashed t cb script (branchMessage q)
  | climbed : Hashed t cb script (tweakMessage cb.internalKey (cb.climb script))

/-- No two messages have the same hash. -/
def NoCollision (t : LeafTree TapLeaf) (cb : ControlBlock S) (script : Bytes) : Prop :=
  Set.InjOn Tagged.hash {m | Hashed t cb script m}

/-- A key is not tweaked by two hashes to one key. -/
def XOnlyTweaks.Binds (secp : XOnlyTweaks S) (key : S.XOnlyPublicKey) (h h' : U8Array 32) : Prop :=
  ∀ scalar scalar' r, secp.scalarFromBeBytes h = .ok scalar → secp.scalarFromBeBytes h' = .ok scalar' →
    secp.addTweak key scalar = .ok r → secp.addTweak key scalar' = .ok r → h = h'

theorem NoCollision.collisionFree {t : LeafTree TapLeaf} {cb : ControlBlock S} {script : Bytes}
    (h : NoCollision t cb script) (hhidden : ∀ leaf ∈ t.leaves, leaf.isHidden = false) :
    LeafTree.CollisionFree TapLeaf.nodeHash TapNodeHash.fromNodeHashes
      {leaf | leaf = .script script cb.leafVersion ∨ leaf ∈ t.leaves}
      {q | q ∈ LeafTree.climbPairs TapNodeHash.fromNodeHashes (TapLeafHash.fromScript script cb.leafVersion)
        cb.merkleBranch.hashes ∨ q ∈ t.pairs TapLeaf.nodeHash TapNodeHash.fromNodeHashes} := by
  have hleaf : ∀ leaf, leaf = .script script cb.leafVersion ∨ leaf ∈ t.leaves → ∃ s ver,
      leaf = .script s ver ∧ Hashed t cb script (leafMessage s ver) ∧ leaf.nodeHash = (leafMessage s ver).hash := by
    rintro leaf (rfl | hmem)
    · exact ⟨_, _, rfl, .script, fromScript_eq_hash _ _⟩
    · cases leaf with
      | script s ver => exact ⟨s, ver, rfl, .leaf hmem, fromScript_eq_hash _ _⟩
      | hidden hash => cases hhidden _ hmem
  have hpair : ∀ q : TapNodeHash × TapNodeHash, q ∈ LeafTree.climbPairs TapNodeHash.fromNodeHashes
      (TapLeafHash.fromScript script cb.leafVersion) cb.merkleBranch.hashes ∨
        q ∈ t.pairs TapLeaf.nodeHash TapNodeHash.fromNodeHashes → Hashed t cb script (branchMessage q) := by
    rintro q (hq | hq)
    · exact .climb hq
    · exact .node hq
  refine ⟨fun a ha b hb hab => ?_, fun p hp q hq hpq => ?_, fun a ha q hq haq => ?_⟩
  · obtain ⟨s, ver, rfl, hs, heq⟩ := hleaf a ha
    obtain ⟨s', ver', rfl, hs', heq'⟩ := hleaf b hb
    rw [heq, heq'] at hab
    obtain ⟨rfl, rfl⟩ := leafMessage_injective (h hs hs' hab)
    rfl
  · rw [fromNodeHashes_eq_hash, fromNodeHashes_eq_hash] at hpq
    exact branchMessage_cases (h (hpair p hp) (hpair q hq) hpq)
  · obtain ⟨s, ver, rfl, hs, heq⟩ := hleaf a ha
    rw [heq, fromNodeHashes_eq_hash] at haq
    -- the tags differ
    have htags : asBytes "TapLeaf" = asBytes "TapBranch" := congrArg Prod.fst (h hs (hpair q hq) haq)
    exact absurd htags (by decide)

theorem tapTweak_of_fromNodeInfo (hinfo : TaprootSpendInfo.fromNodeInfo secp internalKey node = .ok info) :
    ∃ scalar, secp.scalarFromBeBytes (tapTweakHash internalKey (some node.hash)) = .ok scalar ∧
      secp.addTweak internalKey scalar = .ok (info.outputKey, info.outputKeyParity) := by
  obtain ⟨htweak, -⟩ := TaprootSpendInfo.fromNodeInfo_eq_ok hinfo
  obtain ⟨tweak, hscalar, htweak⟩ := Outcome.bind_eq_ok_iff.1 htweak
  obtain ⟨⟨outputKey, parity⟩, hadd, htweak⟩ := Outcome.bind_eq_ok_iff.1 htweak
  obtain ⟨-, htweak⟩ := Outcome.require_bind_eq_ok_iff.1 htweak
  cases htweak
  exact ⟨tweak, expect_ofExcept_eq_ok_iff.1 hscalar, expect_ofExcept_eq_ok_iff.1 hadd⟩

/-- The check accepts a control block with the parity of the output key if the way up leads to a root by which the
internal key is tweaked to the output key. -/
theorem verifyTaprootCommitment_eq_true (hsecp : secp.Lawful) {cb : ControlBlock S} {script : Bytes}
    {outputKey : S.XOnlyPublicKey} : cb.verifyTaprootCommitment secp outputKey script = .ok true ↔
      ∃ scalar, secp.scalarFromBeBytes (tapTweakHash cb.internalKey (some (cb.climb script))) = .ok scalar ∧
        secp.addTweak cb.internalKey scalar = .ok (outputKey, cb.outputKeyParity) := by
  unfold ControlBlock.verifyTaprootCommitment
  constructor
  · intro h
    obtain ⟨scalar, hscalar, h⟩ := Outcome.bind_eq_ok_iff.1 h
    exact ⟨scalar, expect_ofExcept_eq_ok_iff.1 hscalar, (hsecp _ _ _ _).1 (Outcome.ok.inj h)⟩
  · rintro ⟨scalar, hscalar, hadd⟩
    refine Outcome.bind_eq_ok_iff.2 ⟨scalar, expect_ofExcept_eq_ok_iff.2 hscalar, ?_⟩
    rw [(hsecp _ _ _ _).2 hadd]
    rfl

/-- With the internal key of a tree without hidden nodes and the parity of its output key, the check accepts
exactly the control blocks of the leaves of the tree, each with its own branch. -/
theorem verifyTaprootCommitment_iff (hsecp : secp.Lawful) {t : LeafTree TapLeaf} (hnode : nodeOf t = .ok node)
    (hhidden : node.hasHiddenNodes = false)
    (hinfo : TaprootSpendInfo.fromNodeInfo secp internalKey node = .ok info) {cb : ControlBlock S}
    (hkey : cb.internalKey = internalKey) (hparity : cb.outputKeyParity = info.outputKeyParity) (script : Bytes)
    (hfree : NoCollision t cb script)
    (hbinds : secp.Binds internalKey (tapTweakHash internalKey (some node.hash))
      (tapTweakHash internalKey (some (cb.climb script)))) :
    cb.verifyTaprootCommitment secp info.outputKey script = .ok true ↔
      ∃ l ∈ node.leaves, l.leaf = .script script cb.leafVersion ∧ l.merkleBranch = cb.merkleBranch := by
  subst hkey
  obtain ⟨hroot, hany, hproofs⟩ := mem_proofs_iff hnode
  obtain ⟨scalar, hscalar, hadd⟩ := tapTweak_of_fromNodeInfo hinfo
  rw [verifyTaprootCommitment_eq_true hsecp, hparity]
  constructor
  · rintro ⟨scalar', hscalar', hadd'⟩
    have htweak := hbinds _ _ _ hscalar hscalar' hadd hadd'
    rw [tapTweakHash_eq_hash, tapTweakHash_eq_hash, hroot] at htweak
    have hmessage := hfree .root .climbed htweak
    have hclimb : treeRoot t = cb.climb script := U8Array.ext (List.append_cancel_left (congrArg Prod.snd hmessage))
    have hleaves : ∀ leaf ∈ t.leaves, leaf.isHidden = false := by
      rw [hhidden] at hany
      simpa using hany.symm
    have hmem : (TapLeaf.script script cb.leafVersion, cb.merkleBranch.hashes) ∈
        t.proofs TapLeaf.nodeHash TapNodeHash.fromNodeHashes :=
      LeafTree.mem_proofs_of_climb (hfree.collisionFree hleaves) hclimb.symm
    obtain ⟨l, hl, heq⟩ := List.mem_map.1 ((hproofs _).2 ⟨hmem, rfl⟩)
    obtain ⟨hleaf, hhashes⟩ := Prod.mk.inj heq
    refine ⟨l, hl, hleaf, ?_⟩
    cases hbranch : l.merkleBranch with
    | mk hashes hle =>
      cases hbranch' : cb.merkleBranch with
      | mk hashes' hle' =>
        rw [hbranch, hbranch'] at hhashes
        obtain rfl : hashes = hashes' := hhashes
        rfl
  · rintro ⟨l, hl, hleaf, hbranch⟩
    obtain ⟨hmem, -⟩ := (hproofs _).1 (List.mem_map_of_mem hl)
    have hclimb := LeafTree.climb_of_mem_proofs TapNodeHash.fromNodeHashes_comm hmem
    rw [hleaf, hbranch, ← hroot] at hclimb
    rw [show cb.climb script = node.hash from hclimb]
    exact ⟨scalar, hscalar, hadd⟩

/-! ### A tree with two leaves -/

section Sample

open Secp256k1

/-- The control block of the left leaf. -/
def sampleControlBlock : ControlBlock KeyFormats.curve :=
  ⟨.tapScript, sampleOutput.2, sampleInternalKey, siblingBranch sampleRight⟩

theorem controlBlock_sample : sampleInfo.controlBlock ⟨[0x51], .tapScript⟩ = .ok (some sampleControlBlock) := by
  rcases TaprootSpendInfo.controlBlock_fromNodeInfo fromNodeInfo_sample ⟨[0x51], .tapScript⟩ with
    ⟨l, hl, hleaf, hok, -⟩ | ⟨hno, -⟩
  · rcases List.mem_cons.1 hl with rfl | hl
    · exact hok
    · obtain rfl := List.mem_singleton.1 hl
      exact absurd hleaf (by decide)
  · exact absurd rfl (hno _ List.mem_cons_self)

theorem fromSlice_sample :
    WitnessRepr.fromSlice (spendElements [[1]] [0x51] sampleControlBlock (some ⟨[0x50, 2], rfl⟩)) =
      .ok (pack (spendElements [[1]] [0x51] sampleControlBlock (some ⟨[0x50, 2], rfl⟩))) := by
  decide

/-- The left script, with an argument and an annex. -/
theorem script_spend_arrives_sample :
    ∃ w, WitnessRepr.fromSlice (spendElements [[1]] [0x51] sampleControlBlock (some ⟨[0x50, 2], rfl⟩)) = .ok w ∧
      w.taprootLeafScript = .ok (some ⟨.tapScript, [0x51]⟩) ∧ w.taprootAnnex = .ok (some [0x50, 2]) ∧
      sampleControlBlock.verifyTaprootCommitment sampleTweaks sampleInfo.outputKey [0x51] = .ok true := by
  obtain ⟨hleaf, -, hannex, -, hverify⟩ := script_spend_arrives KeyFormats.curve_lawful sampleTweaks_lawful
    (built_of_nodeOf nodeOf_sampleTree) fromNodeInfo_sample controlBlock_sample [[1]] (some ⟨[0x50, 2], rfl⟩)
    fromSlice_sample
  exact ⟨_, fromSlice_sample, hleaf, hannex, hverify⟩

/-- The hash of a script that is not in the tree, and where the branch leads to from it. -/
def otherLeft : TapNodeHash :=
  ⟨[168, 25, 157, 184, 94, 31, 148, 185, 17, 166, 63, 254, 206, 1, 43, 184, 175, 201, 33, 49, 229, 154, 97, 67,
    65, 219, 78, 210, 49, 42, 60, 72], rfl⟩

def otherRoot : TapNodeHash :=
  ⟨[150, 245, 239, 103, 161, 100, 29, 231, 239, 56, 218, 3, 97, 241, 87, 173, 91, 104, 116, 219, 142, 253, 14,
    224, 239, 124, 184, 78, 73, 118, 172, 230], rfl⟩

/-- The hashes of the way up from the other script, computed. -/
theorem other_hashes : TapLeafHash.fromScript [0x53] .tapScript = otherLeft ∧
    TapNodeHash.fromNodeHashes otherLeft sampleRight = otherRoot ∧
    (tapTweakHash (S := KeyFormats.curve) sampleInternalKey (some otherRoot)).toList = beBytes 32 otherTweak.1 := by
  decide +kernel

theorem climb_sample : sampleControlBlock.climb [0x51] = sampleRoot := by
  obtain ⟨hleft, -, hroot, -⟩ := sample_hashes
  show TapNodeHash.fromNodeHashes (TapLeafHash.fromScript [0x51] .tapScript) sampleRight = sampleRoot
  rw [hleft, TapNodeHash.fromNodeHashes_comm, hroot]

theorem climb_other : sampleControlBlock.climb [0x53] = otherRoot := by
  obtain ⟨hleft, hroot, -⟩ := other_hashes
  show TapNodeHash.fromNodeHashes (TapLeafHash.fromScript [0x53] .tapScript) sampleRight = otherRoot
  rw [hleft, hroot]

theorem treeRoot_sampleTree : treeRoot sampleTree = sampleRoot := by
  obtain ⟨hleft, hright, hroot, -⟩ := sample_hashes
  show TapNodeHash.fromNodeHashes (TapLeafHash.fromScript [0x51] .tapScript)
    (TapLeafHash.fromScript [0x52] .tapScript) = sampleRoot
  rw [hleft, hright, TapNodeHash.fromNodeHashes_comm, hroot]

/-- What is hashed for the tree, and on the way up from either script. -/
def sampleTagged : List Tagged :=
  [leafMessage [0x51] .tapScript, leafMessage [0x52] .tapScript, leafMessage [0x53] .tapScript,
    branchMessage (sampleLeft, sampleRight), branchMessage (otherLeft, sampleRight),
    tweakMessage (S := KeyFormats.curve) sampleInternalKey sampleRoot,
    tweakMessage (S := KeyFormats.curve) sampleInternalKey otherRoot]

theorem hash_sampleTagged : sampleTagged.map (fun m => m.hash.toList) =
    [sampleLeft.toList, sampleRight.toList, otherLeft.toList, sampleRoot.toList, otherRoot.toList,
      beBytes 32 sampleTweak.1, beBytes 32 otherTweak.1] := by
  obtain ⟨hleft, hright, hroot, htweak⟩ := sample_hashes
  obtain ⟨hleft', hroot', htweak'⟩ := other_hashes
  rw [TapNodeHash.fromNodeHashes_comm] at hroot
  have htagged : (tweakMessage (S := KeyFormats.curve) sampleInternalKey sampleRoot).hash.toList =
      beBytes 32 sampleTweak.1 := (congrArg U8Array.toList (tapTweakHash_eq_hash _ _)).symm.trans htweak
  have htagged' : (tweakMessage (S := KeyFormats.curve) sampleInternalKey otherRoot).hash.toList =
      beBytes 32 otherTweak.1 := (congrArg U8Array.toList (tapTweakHash_eq_hash _ _)).symm.trans htweak'
  simp only [sampleTagged, List.map_cons, List.map_nil, ← fromScript_eq_hash, ← fromNodeHashes_eq_hash, hleft, hright,
    hroot, htagged, hleft', hroot', htagged']

theorem noCollision_sample {script : Bytes} (h : script = [0x51] ∨ script = [0x53]) :
    NoCollision sampleTree sampleControlBlock script := by
  obtain ⟨hleft, hright, -⟩ := sample_hashes
  obtain ⟨hleft', -⟩ := other_hashes
  have hmem : ∀ m, Hashed sampleTree sampleControlBlock script m → m ∈ sampleTagged := by
    intro m hm
    cases hm with
    | leaf hl =>
      rcases List.mem_cons.1 hl with hl | hl
      · cases hl
        simp [sampleTagged]
      · cases List.mem_singleton.1 hl
        simp [sampleTagged]
    | node hq =>
      obtain rfl := List.mem_singleton.1 hq
      simp [sampleTagged, LeafTree.root, TapLeaf.nodeHash, hleft, hright]
    | root =>
      rw [treeRoot_sampleTree]
      simp [sampleTagged, sampleControlBlock]
    | script => rcases h with rfl | rfl <;> simp [sampleTagged, sampleControlBlock]
    | climb hq =>
      obtain rfl := List.mem_singleton.1 hq
      rcases h with rfl | rfl <;> simp [sampleTagged, sampleControlBlock, hleft, hleft']
    | climbed =>
      rcases h with rfl | rfl
      · rw [climb_sample]
        simp [sampleTagged, sampleControlBlock]
      · rw [climb_other]
        simp [sampleTagged, sampleControlBlock]
  have hnodup : (sampleTagged.map fun m => m.hash.toList).Nodup := by
    rw [hash_sampleTagged]
    exact List.Nodup.of_map (fun bytes => bytes.take 2) (by decide)
  intro m hm m' hm' heq
  exact List.inj_on_of_nodup_map hnodup (hmem m hm) (hmem m' hm') (congrArg U8Array.toList heq)

/-- The two tweaks lead to keys of different parity. -/
theorem binds_sample {h : U8Array 32} (hother : h.toList = beBytes 32 otherTweak.1) :
    sampleTweaks.Binds sampleInternalKey
      (tapTweakHash (S := KeyFormats.curve) sampleInternalKey (some sampleRoot)) h := by
  intro scalar scalar' r hscalar hscalar' hadd hadd'
  obtain ⟨-, -, -, htweak⟩ := sample_hashes
  cases hscalar.symm.trans (scalarFromBeBytes_sample htweak)
  cases hscalar'.symm.trans (scalarFromBeBytes_sample hother)
  have hout : sampleAddTweak sampleInternalKey sampleTweak = .ok sampleOutput :=
    (if_neg (not_not.2 rfl)).trans (if_pos rfl)
  have hout' : sampleAddTweak sampleInternalKey otherTweak = .ok otherOutput :=
    (if_neg (not_not.2 rfl)).trans ((if_neg (by decide)).trans (if_pos rfl))
  have hsame : sampleOutput.2 = otherOutput.2 :=
    congrArg Prod.snd (Except.ok.inj ((hout.symm.trans hadd).trans (hadd'.symm.trans hout')))
  exact absurd hsame (by decide)

/-- With the branch of the left leaf its script passes, and a script that is not in the tree does not. -/
theorem verifyTaprootCommitment_iff_sample :
    sampleControlBlock.verifyTaprootCommitment sampleTweaks sampleInfo.outputKey [0x51] = .ok true ∧
      sampleControlBlock.verifyTaprootCommitment sampleTweaks sampleInfo.outputKey [0x53] ≠ .ok true := by
  obtain ⟨-, -, htweak⟩ := other_hashes
  constructor
  · refine (verifyTaprootCommitment_iff sampleTweaks_lawful nodeOf_sampleTree rfl fromNodeInfo_sample rfl rfl [0x51]
      (noCollision_sample (.inl rfl)) ?_).2 ⟨_, List.mem_cons_self, rfl, rfl⟩
    rw [climb_sample]
    exact fun _ _ _ _ _ _ _ => rfl
  · have hbinds : sampleTweaks.Binds sampleInternalKey (tapTweakHash (S := KeyFormats.curve) sampleInternalKey
        (some sampleRoot)) (tapTweakHash (S := KeyFormats.curve) sampleInternalKey
          (some (sampleControlBlock.climb [0x53]))) := by
      rw [climb_other]
      exact binds_sample htweak
    rw [ne_eq, verifyTaprootCommitment_iff sampleTweaks_lawful nodeOf_sampleTree rfl fromNodeInfo_sample rfl rfl [0x53]
      (noCollision_sample (.inr rfl)) hbinds]
    rintro ⟨l, hl, hleaf, -⟩
    rcases List.mem_cons.1 hl with rfl | hl
    · exact absurd hleaf (by decide)
    · obtain rfl := List.mem_singleton.1 hl
      exact absurd hleaf (by decide)

end Sample

end Taproot

end RustDogecoin
