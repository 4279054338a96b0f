import RustDogecoin.Bip152
import RustDogecoin.Hashes.Siphash24
import RustDogecoin.Lib.Selection

/-!
# Compact blocks from full ones

`HeaderAndShortIds::from_block` of `bip152.rs`.  The loop walks over the transactions of the block and
takes the caller's indexes off a list as it comes to them: these transactions are sent along, with the
gaps between their indexes, after the coinbase, and the others are announced by their short ids.  What is
left of the list after the loop is an error.  The capacity of `short_ids` is computed before, by a
subtraction, and a list longer than the block stops the run there instead.
-/

namespace RustDogecoin

/-- A BIP-152 error. -/
inductive Bip152.Error where
  | unknownVersion
  | invalidPrefill
  deriving DecidableEq, Repr

/-- `siphash24::Hash::hash_with_keys`. -/
def Siphash24.hashWithKeys (k0 k1 : UInt64) (data : Bytes) : U8Array 8 :=
  ⟨leBytes 8 (hashToU64WithKeys k0 k1 data).toNat, length_leBytes _ _⟩

namespace ShortId

/-- Calculate the SipHash24 keys used to calculate short IDs. -/
def calculateSiphashKeys (header : PureHeader) (nonce : UInt64) : Outcome Empty (UInt64 × UInt64) := do
  let header ← Blockdata.Header.codec.consensusEncode header
  let nonce ← u64.consensusEncode nonce
  let h := (Sha256.hash (header ++ nonce).bytes).toList
  return (UInt64.ofNat (leNat (h.take 8)), UInt64.ofNat (leNat ((h.drop 8).take 8)))

/-- Calculate the short ID with the given (w)txid and using the provided SipHash keys. -/
def withSiphashKeys (txid : U8Array 32) (siphashKeys : UInt64 × UInt64) : ShortId :=
  let hash := Siphash24.hashWithKeys siphashKeys.1 siphashKeys.2 txid.toList
  ⟨hash.toList.take 6, by rw [List.length_take, hash.length_eq]; rfl⟩

theorem exists_calculateSiphashKeys (header : PureHeader) (nonce : UInt64) :
    ∃ keys, calculateSiphashKeys header nonce = .ok keys := ⟨_, rfl⟩

end ShortId

/-- The transaction after `witness.clear()` on every input. -/
def Transaction.noWitness (tx : Transaction) : Transaction :=
  { tx with input := tx.input.map fun i => { i with witness := Witness.new } }

namespace HeaderAndShortIds

/-! ## The loop -/

/-- The transaction of a `PrefilledTransaction`. -/
def prefilledTx (version : UInt32) (tx : Transaction) : Outcome Empty Transaction :=
  if version = 1 then .ok tx.noWitness
  else if version = 2 then .ok tx
  else .panic .assertion -- `unreachable!()`

def shortId (version : UInt32) (siphashKeys : UInt64 × UInt64) (tx : Transaction) :
    Outcome Empty ShortId := do
  let txid ←
    if version = 1 then tx.computeTxid
    else if version = 2 then tx.computeWtxid
    else .panic .assertion -- `unreachable!()`
  return ShortId.withSiphashKeys txid siphashKeys

/-- The loop over the enumerated transactions: `prefilled`, `short_ids` and what is left of `prefill`. -/
def fromBlockLoop (siphashKeys : UInt64 × UInt64) (version : UInt32) :
    List (Transaction × ℕ) → List ℕ → ℕ →
      Outcome Empty (List PrefilledTransaction × List ShortId × List ℕ)
  | [], prefill, _ => return ([], [], prefill)
  | (tx, idx) :: txs, prefill, lastPrefill => do
    -- Always prefill coinbase.
    let (prefillTx, prefill) :=
      if prefill.head? = some idx then (true, prefill.tail) else (idx == 0, prefill)
    if prefillTx then
      .require (lastPrefill ≤ idx) .overflow
      let tx ← prefilledTx version tx
      let (prefilled, shortIds, prefill) ← fromBlockLoop siphashKeys version txs prefill (idx + 1)
      return (⟨UInt16.ofNat (idx - lastPrefill), tx⟩ :: prefilled, shortIds, prefill)
    else
      let id ← shortId version siphashKeys tx
      let (prefilled, shortIds, prefill) ← fromBlockLoop siphashKeys version txs prefill lastPrefill
      return (prefilled, id :: shortIds, prefill)

/-- Create a new `HeaderAndShortIds` from a full block. -/
def fromBlock (block : Blockdata.Block) (nonce : UInt64) (version : UInt32) (prefill : List ℕ) :
    Outcome Bip152.Error HeaderAndShortIds := do
  .ensure (version = 1 ∨ version = 2) .unknownVersion
  let siphashKeys ← .lift (ShortId.calculateSiphashKeys block.header nonce)
  -- `Vec::with_capacity(block.txdata.len() - prefill.len())`
  .require (prefill.length ≤ block.txdata.length) .overflow
  let (prefilled, shortIds, prefill) ←
    .lift (fromBlockLoop siphashKeys version block.txdata.zipIdx prefill 0)
  .ensure (prefill = []) .invalidPrefill
  return ⟨block.header, nonce, shortIds, prefilled⟩

/-! ## What a compact block announces -/

/-- The transaction as the version sends it along. -/
def sent (version : UInt32) (tx : Transaction) : Transaction := if version = 1 then tx.noWitness else tx

/-- The indexes of the prefilled transactions in the block. -/
def indexes (h : HeaderAndShortIds) : List ℕ :=
  Selection.ofGaps 0 (h.prefilledTxs.map (·.idx.toNat))

/-- The list is increasing and stays within a block of `n` transactions. -/
def ValidPrefill (n : ℕ) (prefill : List ℕ) : Prop :=
  prefill.Pairwise (· < ·) ∧ ∀ i ∈ prefill, i < n

/-- The compact block of `block` that sends the coinbase and the transactions of `prefill` along. -/
structure Announces (h : HeaderAndShortIds) (block : Blockdata.Block) (nonce : UInt64)
    (version : UInt32) (prefill : List ℕ) : Prop where
  header_eq : h.header = block.header
  nonce_eq : h.nonce = nonce
  increasing : h.indexes.Pairwise (· < ·)
  mem_indexes : ∀ i, i ∈ h.indexes ↔ i = 0 ∨ i ∈ prefill
  transactions : h.prefilledTxs.map (fun t => some t.tx) =
    h.indexes.map fun i => block.txdata[i]?.map (sent version)
  exists_shortIds : ∃ keys, ShortId.calculateSiphashKeys block.header nonce = .ok keys ∧
    ((block.txdata.zipIdx.filter fun t => t.2 ≠ 0 ∧ t.2 ∉ prefill).map Prod.fst).mapM
      (shortId version keys) = .ok h.shortIds

/-! ## The loop is a walk -/

variable {version : UInt32} {keys : UInt64 × UInt64} {prefill : List ℕ} {txs : List Transaction}

theorem prefilledTx_eq (hv : version = 1 ∨ version = 2) (tx : Transaction) :
    prefilledTx version tx = .ok (sent version tx) := by
  rcases hv with rfl | rfl <;> rfl

theorem exists_shortId (hv : version = 1 ∨ version = 2) {tx : Transaction} (h : tx.Sized) :
    ∃ id, shortId version keys tx = .ok id := by
  rcases hv with rfl | rfl
  · obtain ⟨txid, e⟩ := Transaction.exists_computeTxid h
    exact ⟨_, Outcome.bind_eq_ok_iff.2 ⟨txid, e, rfl⟩⟩
  · obtain ⟨wtxid, e⟩ := Transaction.exists_computeWtxid h
    exact ⟨_, Outcome.bind_eq_ok_iff.2 ⟨wtxid, e, rfl⟩⟩

/-- The list with the index of the coinbase in front. -/
def withCoinbase (prefill : List ℕ) : List ℕ :=
  0 :: if prefill.head? = some 0 then prefill.tail else prefill

theorem mem_withCoinbase {i : ℕ} : i ∈ withCoinbase prefill ↔ i = 0 ∨ i ∈ prefill := by
  unfold withCoinbase
  split_ifs with h
  · obtain ⟨rest, rfl⟩ := List.head?_eq_some_iff.1 h
    simp
  · simp

theorem increasing_withCoinbase {n : ℕ} (hn : 0 < n) :
    Selection.Increasing n 0 (withCoinbase prefill) ↔ ValidPrefill n prefill := by
  have hvalid : ValidPrefill n prefill ↔ Selection.Increasing n 0 prefill := by
    simp [ValidPrefill, Selection.increasing_iff]
  rw [hvalid]
  unfold withCoinbase
  split_ifs with h
  · obtain ⟨rest, rfl⟩ := List.head?_eq_some_iff.1 h
    rfl
  · rw [Selection.increasing_succ_iff h, Selection.Increasing]
    simp [hn]

/-- The coinbase is taken along whether its index is listed or not. -/
theorem fromBlockLoop_withCoinbase (tx : Transaction) (lastPrefill : ℕ) :
    fromBlockLoop keys version ((tx :: txs).zipIdx 0) prefill lastPrefill =
      fromBlockLoop keys version ((tx :: txs).zipIdx 0) (withCoinbase prefill) lastPrefill := by
  unfold withCoinbase
  by_cases h : prefill.head? = some 0
  · obtain ⟨rest, rfl⟩ := List.head?_eq_some_iff.1 h
    rfl
  · simp only [List.zipIdx_cons, fromBlockLoop, if_neg h]
    rfl

/-- The prefilled transactions are the items that the walk takes, with the gaps between their indexes from
`lastPrefill` on, and the short ids are those of the others. -/
structure Follows (siphashKeys : UInt64 × UInt64) (version : UInt32) (lastPrefill : ℕ)
    (walk : Selection.Walk Transaction) (prefilled : List PrefilledTransaction)
    (shortIds : List ShortId) : Prop where
  indexes : Selection.ofGaps lastPrefill (prefilled.map (·.idx.toNat)) = walk.selected.map Prod.snd
  transactions : prefilled.map (·.tx) = walk.selected.map (sent version ·.1)
  shortIds : walk.others.mapM (shortId version siphashKeys) = .ok shortIds

variable {walk : Selection.Walk Transaction} {prefilled : List PrefilledTransaction}
  {shortIds : List ShortId} {idx lastPrefill : ℕ}

theorem Follows.select (h : Follows keys version (idx + 1) walk prefilled shortIds)
    (hlast : lastPrefill ≤ idx) (hidx : idx < 2 ^ 16) (tx : Transaction) :
    Follows keys version lastPrefill (walk.select tx idx)
      (⟨UInt16.ofNat (idx - lastPrefill), sent version tx⟩ :: prefilled) shortIds where
  indexes := by
    -- the cast to `u16` keeps the gap
    have hgap : (UInt16.ofNat (idx - lastPrefill)).toNat = idx - lastPrefill :=
      UInt16.toNat_ofNat_of_lt' (Nat.lt_of_le_of_lt (Nat.sub_le idx lastPrefill) hidx)
    rw [List.map_cons, Selection.ofGaps, hgap, Nat.add_sub_cancel' hlast, h.indexes]
    rfl
  transactions := by
    rw [List.map_cons, h.transactions]
    rfl
  shortIds := h.shortIds

theorem Follows.skip (h : Follows keys version lastPrefill walk prefilled shortIds) {tx : Transaction}
    {id : ShortId} (hid : shortId version keys tx = .ok id) :
    Follows keys version lastPrefill (walk.skip tx) prefilled (id :: shortIds) where
  indexes := h.indexes
  transactions := h.transactions
  shortIds := by
    rw [Selection.Walk.skip, List.mapM_cons, hid, Outcome.ok_bind, h.shortIds]
    rfl

/-- The loop from the index `lo` on takes what the walk takes. -/
theorem fromBlockLoop_zipIdx (hv : version = 1 ∨ version = 2) (lo : ℕ) (txs : List Transaction)
    (prefill : List ℕ) (hsized : ∀ tx ∈ txs, tx.Sized) (hcoinbase : lo = 0 → prefill.head? = some 0)
    (hle : lo + txs.length ≤ 2 ^ 16) (hlast : lastPrefill ≤ lo) :
    ∃ prefilled shortIds, fromBlockLoop keys version (txs.zipIdx lo) prefill lastPrefill =
        .ok (prefilled, shortIds, (Selection.walk lo txs prefill).rest) ∧
      Follows keys version lastPrefill (Selection.walk lo txs prefill) prefilled shortIds := by
  induction lo, txs, prefill using Selection.walk_induct generalizing lastPrefill with
  | nil lo prefill => exact ⟨[], [], rfl, rfl, rfl, rfl⟩
  | select lo tx txs prefill ih =>
    rw [List.length_cons] at hle
    obtain ⟨prefilled, shortIds, hloop, hfollows⟩ :=
      ih (fun t ht => hsized t (List.mem_cons_of_mem tx ht)) (by omega) (by omega) (Nat.le_refl (lo + 1))
    rw [Selection.walk_cons_self]
    refine ⟨_, shortIds, ?_, hfollows.select hlast (by omega) tx⟩
    simp only [List.zipIdx_cons, fromBlockLoop, List.head?_cons, if_true, List.tail_cons]
    rw [Outcome.require_of hlast, Outcome.ok_bind, prefilledTx_eq hv, Outcome.ok_bind, hloop]
    rfl
  | skip lo tx txs prefill hne ih =>
    have hlo : lo ≠ 0 := fun e => hne (by rw [hcoinbase e, e])
    rw [List.length_cons] at hle
    obtain ⟨prefilled, shortIds, hloop, hfollows⟩ :=
      ih (fun t ht => hsized t (List.mem_cons_of_mem tx ht)) (by omega) (by omega)
        (Nat.le_succ_of_le hlast)
    obtain ⟨id, hid⟩ : ∃ id, shortId version keys tx = .ok id :=
      exists_shortId hv (hsized tx List.mem_cons_self)
    rw [Selection.walk_cons_of_ne tx hne]
    refine ⟨prefilled, id :: shortIds, ?_, hfollows.skip hid⟩
    simp only [List.zipIdx_cons, fromBlockLoop, if_neg hne]
    rw [if_neg (by simpa using hlo), hid, Outcome.ok_bind, hloop]
    rfl

/-! ## The compact block -/

variable {block : Blockdata.Block} {nonce : UInt64}

/-- A list longer than the block is not rejected: the run stops before the loop. -/
theorem fromBlock_of_lt (hv : version = 1 ∨ version = 2) (h : block.txdata.length < prefill.length) :
    fromBlock block nonce version prefill = .panic .overflow := by
  obtain ⟨keys, hkeys⟩ := ShortId.exists_calculateSiphashKeys block.header nonce
  rw [fromBlock, Outcome.ensure_of hv, Outcome.ok_bind, hkeys, Outcome.lift_ok, Outcome.ok_bind,
    Outcome.require, if_neg (Nat.not_le_of_lt h), Outcome.panic_bind]

/-- What `from_block` returns, by the walk over the block. -/
theorem fromBlock_of_le (hv : version = 1 ∨ version = 2) (hpos : 1 ≤ block.txdata.length)
    (hlimit : block.txdata.length ≤ 2 ^ 16) (hsized : ∀ tx ∈ block.txdata, tx.Sized)
    (hle : prefill.length ≤ block.txdata.length) :
    ∃ keys prefilled shortIds, ShortId.calculateSiphashKeys block.header nonce = .ok keys ∧
      fromBlock block nonce version prefill = (do
        .ensure ((Selection.walk 0 block.txdata (withCoinbase prefill)).rest = []) .invalidPrefill
        return ⟨block.header, nonce, shortIds, prefilled⟩) ∧
      Follows keys version 0 (Selection.walk 0 block.txdata (withCoinbase prefill)) prefilled shortIds := by
  obtain ⟨keys, hkeys⟩ := ShortId.exists_calculateSiphashKeys block.header nonce
  obtain ⟨prefilled, shortIds, hloop, hfollows⟩ :=
    @fromBlockLoop_zipIdx version keys 0 hv 0 block.txdata (withCoinbase prefill) hsized (fun _ => rfl)
      (by omega) (Nat.le_refl 0)
  have hcoinbase : fromBlockLoop keys version block.txdata.zipIdx prefill 0 =
      fromBlockLoop keys version block.txdata.zipIdx (withCoinbase prefill) 0 := by
    obtain ⟨tx, txs, e⟩ := List.exists_cons_of_length_pos hpos
    rw [e]
    exact fromBlockLoop_withCoinbase tx 0
  refine ⟨keys, prefilled, shortIds, hkeys, ?_, hfollows⟩
  rw [fromBlock, Outcome.ensure_of hv, Outcome.ok_bind, hkeys, Outcome.lift_ok, Outcome.ok_bind,
    Outcome.require_of hle, Outcome.ok_bind, hcoinbase, hloop, Outcome.lift_ok, Outcome.ok_bind]

/-- If the walk takes every index, the compact block is the one announced. -/
theorem Follows.announces
    (h : Follows keys version 0 (Selection.walk 0 block.txdata (withCoinbase prefill)) prefilled shortIds)
    (hkeys : ShortId.calculateSiphashKeys block.header nonce = .ok keys)
    (hincreasing : Selection.Increasing block.txdata.length 0 (withCoinbase prefill)) :
    Announces ⟨block.header, nonce, shortIds, prefilled⟩ block nonce version prefill := by
  have hwalk : Selection.Increasing (0 + block.txdata.length) 0 (withCoinbase prefill) := by
    rwa [Nat.zero_add]
  have hindexes : HeaderAndShortIds.indexes ⟨block.header, nonce, shortIds, prefilled⟩ =
      withCoinbase prefill :=
    h.indexes.trans (Selection.map_snd_selected hwalk)
  constructor
  · rfl
  · rfl
  · rw [hindexes]
    exact (Selection.increasing_iff.1 hincreasing).1
  · intro i
    rw [hindexes, mem_withCoinbase]
  · show prefilled.map (some ∘ (·.tx)) = List.map _ (Selection.ofGaps 0 _)
    rw [h.indexes, ← List.map_map, h.transactions, List.map_map, List.map_map]
    apply List.map_congr_left
    rintro ⟨tx, i⟩ hmem
    have hget := Selection.getElem?_of_mem_selected hmem
    rw [Nat.sub_zero] at hget
    simp [hget]
  · refine ⟨keys, hkeys, ?_⟩
    have hids := h.shortIds
    rw [Selection.others_eq_filter hwalk] at hids
    simp only [mem_withCoinbase, not_or] at hids
    exact hids

/-- `from_block` answers every list as it should if the list is not longer than the block, and panics
otherwise. -/
theorem fromBlock_iff (hv : version = 1 ∨ version = 2) (hpos : 1 ≤ block.txdata.length)
    (hlimit : block.txdata.length ≤ 65536) (hsized : ∀ tx ∈ block.txdata, tx.Sized) :
    ((ValidPrefill block.txdata.length prefill →
        ∃ h, fromBlock block nonce version prefill = .ok h ∧ h.Announces block nonce version prefill) ∧
      (¬ValidPrefill block.txdata.length prefill →
        fromBlock block nonce version prefill = .err .invalidPrefill)) ↔
      prefill.length ≤ block.txdata.length := by
  constructor
  · rintro ⟨hvalid, hinvalid⟩
    by_contra hlt
    have hpanic : fromBlock block nonce version prefill = .panic .overflow :=
      fromBlock_of_lt hv (Nat.lt_of_not_le hlt)
    by_cases h : ValidPrefill block.txdata.length prefill
    · obtain ⟨b, hb, -⟩ := hvalid h
      cases hb.symm.trans hpanic
    · cases (hinvalid h).symm.trans hpanic
  · intro hle
    obtain ⟨keys, prefilled, shortIds, hkeys, hrun, hfollows⟩ :=
      @fromBlock_of_le version prefill block nonce hv hpos hlimit hsized hle
    have hrest : (Selection.walk 0 block.txdata (withCoinbase prefill)).rest = [] ↔
        ValidPrefill block.txdata.length prefill := by
      rw [Selection.rest_eq_nil_iff, Nat.zero_add, increasing_withCoinbase hpos]
    constructor
    · intro h
      refine ⟨_, ?_, hfollows.announces hkeys ((increasing_withCoinbase hpos).2 h)⟩
      rw [hrun, Outcome.ensure_of (hrest.2 h)]
      rfl
    · intro h
      rw [hrun, Outcome.ensure, if_neg (fun e => h (hrest.1 e)), Outcome.err_bind]

/-- A block of `n` transactions. -/
def sampleBlock (n : ℕ) : Blockdata.Block :=
  ⟨⟨1, .replicate 32 0, .replicate 32 0, 0, 0, 0⟩, .replicate n Transaction.oneWitness⟩

theorem sampleBlock_sized (n : ℕ) : ∀ tx ∈ (sampleBlock n).txdata, tx.Sized := by
  intro tx htx
  rw [List.eq_of_mem_replicate htx]
  exact ⟨by decide, by decide, by decide, by decide⟩

theorem fromBlock_iff_sample :
    (∃ h, fromBlock (sampleBlock 4) 7 1 [1, 3] = .ok h ∧ h.Announces (sampleBlock 4) 7 1 [1, 3]) ∧
      fromBlock (sampleBlock 4) 7 2 [2, 1] = .err .invalidPrefill :=
  ⟨((fromBlock_iff (.inl rfl) (by decide) (by decide) (sampleBlock_sized 4)).2 (by decide)).1
      ⟨by decide, by decide⟩,
    ((fromBlock_iff (.inr rfl) (by decide) (by decide) (sampleBlock_sized 4)).2 (by decide)).2
      fun h => absurd h.1 (by decide)⟩

/-- The index 2 is not in a block of one transaction, but this is not what the run ends with. -/
theorem long_prefill_panics :
    (sampleBlock 1).txdata.length = 1 ∧ (∀ tx ∈ (sampleBlock 1).txdata, tx.Sized) ∧
      ¬ValidPrefill 1 [1, 2] ∧ fromBlock (sampleBlock 1) 0 1 [1, 2] = .panic .overflow :=
  ⟨rfl, sampleBlock_sized 1, fun h => absurd h.2 (by decide), fromBlock_of_lt (.inl rfl) (by decide)⟩

end HeaderAndShortIds

end RustDogecoin
