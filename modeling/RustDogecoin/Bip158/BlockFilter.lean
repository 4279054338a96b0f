import RustDogecoin.Bip158.Untrusted
import RustDogecoin.Blockdata.Block
import RustDogecoin.Blockdata.Opcode
import RustDogecoin.Lib.HashChain

/-!
# Block filters

The filters of blocks in `bip158.rs`.  A node puts the output scripts of a block into its filter, but for those
that begin with `OP_RETURN`, and the scripts of the coins that are spent after the coinbase.  A query matches
exactly by the range values of these scripts (`newScriptFilter_matches`).

The headers of the filters make a chain.  A client that knows one header checks the filters up to it by their
hashes, whoever it got them from, and misses no block that pays to or spends a script it asks for
(`client_misses_nothing`).
-/

namespace RustDogecoin

/-- `Script::is_op_return`. -/
def Script.isOpReturn (script : ScriptBuf) : Bool :=
  match script.head? with
  | some b => b == OP_RETURN
  | none => false

namespace Bip158

abbrev FilterHash := U8Array 32

abbrev FilterHeader := U8Array 32

/-- Errors for blockfilter, with the one for a coin that the caller does not find. -/
inductive ScriptFilterError where
  | utxoMissing (coin : OutPoint)
  | io (e : IoError)
  deriving DecidableEq, Repr

/-- The seed that is taken from the hash of a block. -/
def siphashKeys (blockHash : BlockHash) : UInt64 × UInt64 :=
  (UInt64.ofNat (leNat (blockHash.toList.take 8)), UInt64.ofNat (leNat ((blockHash.toList.drop 8).take 8)))

/-! ## Writing the filter of a block -/

/-- Compiles and writes a block filter. -/
structure BlockFilterWriter where
  block : Blockdata.Block
  writer : GcsFilterWriter

namespace BlockFilterWriter

/-- Creates a new writer from `block`. -/
def new (writer : Bytes) (block : Blockdata.Block) : Outcome Empty BlockFilterWriter := do
  let (k0, k1) := siphashKeys (← block.header.blockHash)
  return ⟨block, .new writer k0 k1 M P⟩

/-- Adds an arbitrary element to filter. -/
def addElement (w : BlockFilterWriter) (data : Bytes) : BlockFilterWriter :=
  { w with writer := w.writer.addElement data }

/-- Adds output scripts of the block to filter (excluding OP_RETURN scripts). -/
def addOutputScripts (w : BlockFilterWriter) : BlockFilterWriter :=
  w.block.txdata.foldl (fun w transaction => transaction.output.foldl (fun w output =>
    if Script.isOpReturn output.scriptPubkey then w else w.addElement output.scriptPubkey) w) w

/-- The coins that a block spends, but for what the coinbase names. -/
def spentCoins (block : Blockdata.Block) : List OutPoint :=
  (block.txdata.drop 1).flatMap fun t => t.input.map fun i => i.previousOutput

/-- The loop of `add_input_scripts`; scripts that were found before an error have been added. -/
def addScripts (scriptForCoin : OutPoint → Except ScriptFilterError ScriptBuf) :
    List OutPoint → BlockFilterWriter → BlockFilterWriter × Except ScriptFilterError Unit
  | [], w => (w, .ok ())
  | coin :: coins, w =>
    match scriptForCoin coin with
    | .ok script => addScripts scriptForCoin coins (w.addElement script)
    | .error e => (w, .error e)

/-- Adds consumed output scripts of a block to filter. -/
def addInputScripts (w : BlockFilterWriter) (scriptForCoin : OutPoint → Except ScriptFilterError ScriptBuf) :
    BlockFilterWriter × Except ScriptFilterError Unit :=
  addScripts scriptForCoin (spentCoins w.block) w

/-- Writes the block filter. -/
def finish (w : BlockFilterWriter) : Outcome IoError (ℕ × Bytes) := w.writer.finish

end BlockFilterWriter

/-- `BlockFilterReader::new`. -/
def BlockFilterReader.new (blockHash : BlockHash) : GcsFilterReader :=
  .new (siphashKeys blockHash).1 (siphashKeys blockHash).2 M P

/-- A block filter, as described by BIP 158. -/
structure BlockFilter where
  content : Bytes
  deriving DecidableEq, Repr

/-- Computes the filter header from a filter hash and previous filter header. -/
def FilterHash.filterHeader (filterHash : FilterHash) (previousFilterHeader : FilterHeader) : FilterHeader :=
  Sha256d.hash (filterHash.toList ++ previousFilterHeader.toList)

namespace BlockFilter

/-- Computes a SCRIPT_FILTER that contains spent and output scripts. -/
def newScriptFilter (block : Blockdata.Block) (scriptForCoin : OutPoint → Except ScriptFilterError ScriptBuf) :
    Outcome ScriptFilterError BlockFilter := do
  let writer ← .lift (BlockFilterWriter.new [] block)
  let writer := writer.addOutputScripts
  let (writer, added) := writer.addInputScripts scriptForCoin
  .ofExcept added
  let (_, out) ← .mapErr .io writer.finish
  return ⟨out⟩

/-- Computes this filter's ID in a chain of filters. -/
def filterHeader (f : BlockFilter) (previousFilterHeader : FilterHeader) : FilterHeader :=
  FilterHash.filterHeader (Sha256d.hash f.content) previousFilterHeader

/-- Returns true if any query matches against this filter. -/
def matchAny (f : BlockFilter) (blockHash : BlockHash) (query : List Bytes) : Outcome Error Bool :=
  (BlockFilterReader.new blockHash).matchAny f.content query

/-- Returns true if all queries match against this filter. -/
def matchAll (f : BlockFilter) (blockHash : BlockHash) (query : List Bytes) : Outcome Error Bool :=
  (BlockFilterReader.new blockHash).matchAll f.content query

end BlockFilter

open BlockFilterWriter

variable {block : Blockdata.Block} {scriptForCoin : OutPoint → Except ScriptFilterError ScriptBuf}

/-! ## What is in the filter of a block -/

/-- The output scripts that are put into the filter. -/
def outputScripts (block : Blockdata.Block) : List ScriptBuf :=
  (block.txdata.flatMap fun t => t.output.map fun o => o.scriptPubkey).filter fun s => !Script.isOpReturn s

/-- The scripts of the coins that are found. -/
def inputScripts (coins : List OutPoint) (scriptForCoin : OutPoint → Except ScriptFilterError ScriptBuf) :
    List ScriptBuf :=
  coins.filterMap fun coin => (scriptForCoin coin).toOption

/-- The elements of the filter. -/
def elements (block : Blockdata.Block) (scriptForCoin : OutPoint → Except ScriptFilterError ScriptBuf) :
    Finset Bytes :=
  GcsFilterWriter.added (outputScripts block ++ inputScripts (spentCoins block) scriptForCoin)

theorem toOption_eq_some_iff {ε α : Type} {x : Except ε α} {a : α} : x.toOption = some a ↔ x = .ok a := by
  cases x <;> simp [Except.toOption]

theorem inputScripts_cons {coin : OutPoint} {coins : List OutPoint} {s : ScriptBuf}
    (h : scriptForCoin coin = .ok s) :
    inputScripts (coin :: coins) scriptForCoin = s :: inputScripts coins scriptForCoin := by
  have hsome : (fun coin => (scriptForCoin coin).toOption) coin = some s := toOption_eq_some_iff.2 h
  exact List.filterMap_cons_some hsome

/-- A script is an element if the block pays to it or spends it. -/
theorem mem_elements_iff {s : ScriptBuf} : s ∈ elements block scriptForCoin ↔ s ≠ [] ∧
    ((∃ t ∈ block.txdata, ∃ o ∈ t.output, o.scriptPubkey = s ∧ Script.isOpReturn s = false) ∨
      ∃ coin ∈ spentCoins block, scriptForCoin coin = .ok s) := by
  have houtput : s ∈ outputScripts block ↔
      ∃ t ∈ block.txdata, ∃ o ∈ t.output, o.scriptPubkey = s ∧ Script.isOpReturn s = false := by
    simp only [outputScripts, List.mem_filter, List.mem_flatMap, List.mem_map, Bool.not_eq_true']
    tauto
  have hinput : s ∈ inputScripts (spentCoins block) scriptForCoin ↔
      ∃ coin ∈ spentCoins block, scriptForCoin coin = .ok s := by
    simp only [inputScripts, List.mem_filterMap, toOption_eq_some_iff]
  rw [elements, GcsFilterWriter.added, List.mem_toFinset, List.mem_filter, List.mem_append, houtput, hinput,
    decide_eq_true_iff, and_comm]

namespace BlockFilterWriter

variable {w : BlockFilterWriter}

theorem foldl_outputs (outputs : List TxOut) (w : BlockFilterWriter) :
    outputs.foldl (fun w output =>
      if Script.isOpReturn output.scriptPubkey then w else w.addElement output.scriptPubkey) w =
      { w with writer := ((outputs.map fun o => o.scriptPubkey).filter fun s =>
        !Script.isOpReturn s).foldl GcsFilterWriter.addElement w.writer } := by
  induction outputs generalizing w with
  | nil => rfl
  | cons output outputs ih =>
    rw [List.foldl_cons, ih, List.map_cons, List.filter_cons]
    cases Script.isOpReturn output.scriptPubkey <;> rfl

theorem addOutputScripts_eq (w : BlockFilterWriter) : w.addOutputScripts =
    { w with writer := (outputScripts w.block).foldl GcsFilterWriter.addElement w.writer } := by
  have hfold : ∀ (txs : List Transaction) (w : BlockFilterWriter),
      txs.foldl (fun w transaction => transaction.output.foldl (fun w output =>
        if Script.isOpReturn output.scriptPubkey then w else w.addElement output.scriptPubkey) w) w =
        { w with writer := ((txs.flatMap fun t => t.output.map fun o => o.scriptPubkey).filter fun s =>
          !Script.isOpReturn s).foldl GcsFilterWriter.addElement w.writer } := by
    intro txs
    induction txs with
    | nil => exact fun _ => rfl
    | cons tx txs ih =>
      intro w
      rw [List.foldl_cons, foldl_outputs, ih, List.flatMap_cons, List.filter_append, List.foldl_append]
  exact hfold w.block.txdata w

theorem addScripts_of_found {coins : List OutPoint} (h : ∀ coin ∈ coins, ∃ s, scriptForCoin coin = .ok s) :
    addScripts scriptForCoin coins w =
      ({ w with writer := (inputScripts coins scriptForCoin).foldl GcsFilterWriter.addElement w.writer }, .ok ()) := by
  induction coins generalizing w with
  | nil => rfl
  | cons coin coins ih =>
    obtain ⟨s, hs⟩ := h coin List.mem_cons_self
    rw [addScripts, hs]
    dsimp only
    rw [ih fun c hc => h c (List.mem_cons_of_mem _ hc), inputScripts_cons hs]
    rfl

/-- The first coin that is not found stops the loop. -/
theorem addScripts_of_error {found : List OutPoint} {coin : OutPoint} {e : ScriptFilterError} (rest : List OutPoint)
    (h : ∀ coin ∈ found, ∃ s, scriptForCoin coin = .ok s) (he : scriptForCoin coin = .error e) :
    (addScripts scriptForCoin (found ++ coin :: rest) w).2 = .error e := by
  induction found generalizing w with
  | nil =>
    rw [List.nil_append, addScripts, he]
  | cons coin found ih =>
    obtain ⟨s, hs⟩ := h coin List.mem_cons_self
    rw [List.cons_append, addScripts, hs]
    exact ih fun c hc => h c (List.mem_cons_of_mem _ hc)

end BlockFilterWriter

/-- A reader finds in what `finish` writes the range values of the elements. -/
theorem GcsFilterWriter.HasElements.matches {k0 k1 m : UInt64} {p : ℕ} {w : GcsFilterWriter} {s : Finset Bytes}
    (hw : w.HasElements (.new [] k0 k1 m p) s) (hp : p < 64) (hn : s.card < 2 ^ 64)
    (hnm : s.card * m.toNat < 2 ^ 64) :
    ∃ wrote bytes, w.finish = .ok (wrote, bytes) ∧ ∀ query, ∃ any all,
      (GcsFilterReader.new k0 k1 m p).matchAny bytes query = .ok any ∧
      (GcsFilterReader.new k0 k1 m p).matchAll bytes query = .ok all ∧
      (any = true ↔ query = [] ∨ ∃ q ∈ query, ∃ e ∈ s,
        rangeValue k0 k1 m s.card q = rangeValue k0 k1 m s.card e) ∧
      (all = true ↔ query = [] ∨ s.Nonempty ∧ ∀ q ∈ query, ∃ e ∈ s,
        rangeValue k0 k1 m s.card q = rangeValue k0 k1 m s.card e) := by
  have hlen : w.elements.length = s.card := by rw [← hw.toFinset, List.toFinset_card_of_nodup hw.nodup]
  have hvalues : ∀ v, v ∈ values w.filter (s.card * w.m.toNat) w.elements ↔
      ∃ e ∈ s, v = rangeValue k0 k1 m s.card e := by
    intro v
    rw [values, mem_sortUnstable, List.mem_map, hw.m, hw.filter]
    simp only [← hw.toFinset, List.mem_toFinset, eq_comm]
    rfl
  obtain ⟨wrote, bytes, hfinish, hreads⟩ := reads_finish hw.writer
    (by rw [hw.filter]; exact hp) (by rw [hlen]; exact hn) (by rw [hlen, hw.m]; exact hnm)
  have hreader : (⟨w.filter, w.m⟩ : GcsFilterReader) = .new k0 k1 m p := by
    rw [hw.filter, hw.m]
    rfl
  refine ⟨wrote, bytes, hfinish, fun query => ?_⟩
  obtain ⟨any, hany, hany'⟩ := hreads.matchAny query
  obtain ⟨all, hall, hall'⟩ := hreads.matchAll query
  have hhashes : ∀ v, v ∈ (GcsFilterReader.new k0 k1 m p).hashes s.card query ↔
      ∃ q ∈ query, rangeValue k0 k1 m s.card q = v := fun v => GcsFilterReader.mem_hashes_iff
  rw [hreader] at hany hall hany' hall'
  simp only [hlen, hvalues, hhashes] at hany' hall'
  refine ⟨any, all, hany, hall, ?_, ?_⟩
  · rw [hany']
    simp only [exists_exists_and_eq_and]
  · rw [hall', Finset.card_ne_zero]
    simp only [forall_exists_index, and_imp, forall_apply_eq_imp_iff₂]

/-- What a filter says for every query. -/
def BlockFilter.Matches (f : BlockFilter) (blockHash : BlockHash) (s : Finset Bytes) : Prop :=
  ∀ query, ∃ any all, f.matchAny blockHash query = .ok any ∧ f.matchAll blockHash query = .ok all ∧
    (any = true ↔ query = [] ∨ ∃ q ∈ query, ∃ e ∈ s,
      rangeValue (siphashKeys blockHash).1 (siphashKeys blockHash).2 M s.card q =
        rangeValue (siphashKeys blockHash).1 (siphashKeys blockHash).2 M s.card e) ∧
    (all = true ↔ query = [] ∨ s.Nonempty ∧ ∀ q ∈ query, ∃ e ∈ s,
      rangeValue (siphashKeys blockHash).1 (siphashKeys blockHash).2 M s.card q =
        rangeValue (siphashKeys blockHash).1 (siphashKeys blockHash).2 M s.card e)

/-- No element is missed. -/
theorem BlockFilter.Matches.matchAny_eq {f : BlockFilter} {blockHash : BlockHash} {s : Finset Bytes}
    (h : f.Matches blockHash s) {query : List Bytes} {q : Bytes} (hq : q ∈ query) (hs : q ∈ s) :
    f.matchAny blockHash query = .ok true := by
  obtain ⟨any, -, hany, -, hiff, -⟩ := h query
  rw [hany, hiff.2 (Or.inr ⟨q, hq, q, hs, rfl⟩)]

/-- The filter of a block. -/
theorem newScriptFilter_of_found {blockHash : BlockHash} (hhash : block.header.blockHash = .ok blockHash)
    (hfound : ∀ coin ∈ spentCoins block, ∃ s, scriptForCoin coin = .ok s)
    (hnm : (elements block scriptForCoin).card * M.toNat < 2 ^ 64) :
    ∃ f, BlockFilter.newScriptFilter block scriptForCoin = .ok f ∧
      f.Matches blockHash (elements block scriptForCoin) := by
  have hw := GcsFilterWriter.hasElements_foldl
    (w := .new [] (siphashKeys blockHash).1 (siphashKeys blockHash).2 M P) (s := ∅)
    ⟨rfl, rfl, rfl, List.nodup_nil, rfl⟩ (outputScripts block ++ inputScripts (spentCoins block) scriptForCoin)
  rw [Finset.empty_union, List.foldl_append] at hw
  have hn : (elements block scriptForCoin).card < 2 ^ 64 := (Nat.le_mul_of_pos_right _ (by decide)).trans_lt hnm
  obtain ⟨wrote, bytes, hfinish, hmatch⟩ := hw.matches (by decide) hn hnm
  refine ⟨⟨bytes⟩, ?_, hmatch⟩
  rw [BlockFilter.newScriptFilter, BlockFilterWriter.new, hhash]
  simp only [Outcome.ok_bind, Outcome.pure_eq_ok, Outcome.lift_ok, addOutputScripts_eq, addInputScripts,
    addScripts_of_found hfound, Outcome.ofExcept_ok, finish, hfinish, Outcome.mapErr_ok]

/-- The first coin that is not found is the error. -/
theorem newScriptFilter_of_error {blockHash : BlockHash} {found rest : List OutPoint} {coin : OutPoint}
    {e : ScriptFilterError} (hhash : block.header.blockHash = .ok blockHash)
    (hcoins : spentCoins block = found ++ coin :: rest) (hfound : ∀ coin ∈ found, ∃ s, scriptForCoin coin = .ok s)
    (he : scriptForCoin coin = .error e) : BlockFilter.newScriptFilter block scriptForCoin = .err e := by
  rw [BlockFilter.newScriptFilter, BlockFilterWriter.new, hhash]
  simp only [Outcome.ok_bind, Outcome.pure_eq_ok, Outcome.lift_ok, addOutputScripts_eq, addInputScripts, hcoins,
    addScripts_of_error rest hfound he]
  rfl

theorem found_or_first_error (scriptForCoin : OutPoint → Except ScriptFilterError ScriptBuf)
    (coins : List OutPoint) : (∀ coin ∈ coins, ∃ s, scriptForCoin coin = .ok s) ∨
    ∃ found coin rest e, coins = found ++ coin :: rest ∧ (∀ coin ∈ found, ∃ s, scriptForCoin coin = .ok s) ∧
      scriptForCoin coin = .error e := by
  induction coins with
  | nil => exact Or.inl fun coin h => absurd h List.not_mem_nil
  | cons coin coins ih =>
    cases hcoin : scriptForCoin coin with
    | error e => exact Or.inr ⟨[], coin, coins, e, rfl, fun c h => absurd h List.not_mem_nil, hcoin⟩
    | ok s =>
      rcases ih with ih | ⟨found, coin', rest, e, rfl, hfound, he⟩
      · exact Or.inl (List.forall_mem_cons.2 ⟨⟨s, hcoin⟩, ih⟩)
      · exact Or.inr ⟨coin :: found, coin', rest, e, rfl, List.forall_mem_cons.2 ⟨⟨s, hcoin⟩, hfound⟩, he⟩

theorem exists_blockHash (header : Blockdata.Header) : ∃ blockHash, header.blockHash = .ok blockHash := by
  obtain ⟨w, hencode⟩ := header.exists_encode
  exact ⟨Sha256d.hash w.bytes, by rw [Blockdata.Header.blockHash, hencode]; rfl⟩

/-- A filter that was made matches by the scripts of its block. -/
theorem matches_of_newScriptFilter {f : BlockFilter} {blockHash : BlockHash}
    (hhash : block.header.blockHash = .ok blockHash)
    (hnm : (elements block scriptForCoin).card * M.toNat < 2 ^ 64)
    (h : BlockFilter.newScriptFilter block scriptForCoin = .ok f) :
    f.Matches blockHash (elements block scriptForCoin) := by
  rcases found_or_first_error scriptForCoin (spentCoins block) with
    hfound | ⟨found, coin, rest, e, hcoins, hfound, he⟩
  · obtain ⟨f', hf', hmatch⟩ := newScriptFilter_of_found hhash hfound hnm
    cases hf'.symm.trans h
    exact hmatch
  · cases (newScriptFilter_of_error hhash hcoins hfound he).symm.trans h

/-- If all coins that the block spends are found, its filter matches a query exactly by the range values of the
scripts that the block pays to or spends.  Otherwise the first coin that is not found is the error. -/
theorem newScriptFilter_matches (block : Blockdata.Block)
    (scriptForCoin : OutPoint → Except ScriptFilterError ScriptBuf) :
    ∃ blockHash, block.header.blockHash = .ok blockHash ∧
    ((∀ coin ∈ spentCoins block, ∃ s, scriptForCoin coin = .ok s) →
      (elements block scriptForCoin).card * M.toNat < 2 ^ 64 →
      ∃ f, BlockFilter.newScriptFilter block scriptForCoin = .ok f ∧
        f.Matches blockHash (elements block scriptForCoin)) ∧
    ∀ found coin rest e, spentCoins block = found ++ coin :: rest →
      (∀ coin ∈ found, ∃ s, scriptForCoin coin = .ok s) → scriptForCoin coin = .error e →
      BlockFilter.newScriptFilter block scriptForCoin = .err e := by
  obtain ⟨blockHash, hhash⟩ := exists_blockHash block.header
  exact ⟨blockHash, hhash, newScriptFilter_of_found hhash, fun _ _ _ _ => newScriptFilter_of_error hhash⟩

/-- A coinbase with an output that begins with `OP_RETURN`, and a transaction that spends one coin. -/
def sampleBlock : Blockdata.Block where
  header := ⟨1, .replicate 32 0, .replicate 32 0, 0, 0, 0⟩
  txdata := [⟨1, .fromConsensus 0, [⟨⟨.replicate 32 0, 0xffffffff⟩, [], 0, .new⟩], [⟨50, [0x51]⟩, ⟨0, [0x6a, 1]⟩]⟩,
    ⟨1, .fromConsensus 0, [⟨⟨.replicate 32 7, 0⟩, [], 0, .new⟩], [⟨49, [0x52]⟩]⟩]

def sampleScripts (coin : OutPoint) : Except ScriptFilterError ScriptBuf :=
  if coin.txid = .replicate 32 7 then .ok [0x53] else .error (.utxoMissing coin)

theorem found_sample : ∀ coin ∈ spentCoins sampleBlock, ∃ s, sampleScripts coin = .ok s := by
  intro coin hcoin
  have hcoins : spentCoins sampleBlock = [⟨.replicate 32 7, 0⟩] := rfl
  rw [hcoins, List.mem_singleton] at hcoin
  exact ⟨[0x53], by rw [hcoin]; decide⟩

/-- The filter of this block. -/
def sampleFilter : BlockFilter := ⟨[3, 194, 115, 230, 43, 135, 209, 104, 86]⟩

/-- The filter and its elements, computed. -/
theorem sampleFilter_computes :
    BlockFilter.newScriptFilter sampleBlock sampleScripts = .ok sampleFilter ∧
      (elements sampleBlock sampleScripts).card * M.toNat < 2 ^ 64 ∧
      [0x53] ∈ elements sampleBlock sampleScripts := by
  decide +kernel

/-- The script that is spent is found. -/
theorem newScriptFilter_matches_sample : ∃ blockHash f, sampleBlock.header.blockHash = .ok blockHash ∧
    BlockFilter.newScriptFilter sampleBlock sampleScripts = .ok f ∧ f.matchAny blockHash [[0x53]] = .ok true := by
  obtain ⟨blockHash, hhash, hfilter, -⟩ := newScriptFilter_matches sampleBlock sampleScripts
  obtain ⟨-, hcard, hmem⟩ := sampleFilter_computes
  obtain ⟨f, hf, hmatch⟩ := hfilter found_sample hcard
  exact ⟨blockHash, f, hhash, hf, hmatch.matchAny_eq (List.mem_singleton_self _) hmem⟩

/-! ## The chain of filter headers -/

/-- The header of the last filter. -/
def lastHeader (previous : FilterHeader) (fs : List BlockFilter) : FilterHeader :=
  fs.foldl (fun previous f => f.filterHeader previous) previous

/-- What is hashed for a chain of filter headers. -/
inductive ChainHashed (previous : FilterHeader) (fs : List BlockFilter) : Bytes → Prop
  | filter {f : BlockFilter} (h : f ∈ fs) : ChainHashed previous fs f.content
  | link {p : FilterHeader × BlockFilter} (h : p ∈ HashChain.pairs (fun x f => f.filterHeader x) previous fs) :
    ChainHashed previous fs ((Sha256d.hash p.2.content).toList ++ p.1.toList)

/-- The last header binds all filters. -/
theorem eq_of_lastHeader_eq {previous previous' : FilterHeader} {fs gs : List BlockFilter}
    (hlen : fs.length = gs.length)
    (hfree : Set.InjOn Sha256d.hash {m | ChainHashed previous fs m ∨ ChainHashed previous' gs m})
    (h : lastHeader previous fs = lastHeader previous' gs) : previous = previous' ∧ fs = gs := by
  let step : FilterHeader → BlockFilter → FilterHeader := fun x f => f.filterHeader x
  let S := {p | p ∈ HashChain.pairs step previous fs ∨ p ∈ HashChain.pairs step previous' gs}
  have hlink : ∀ p ∈ S, (Sha256d.hash p.2.content).toList ++ p.1.toList ∈
      {m | ChainHashed previous fs m ∨ ChainHashed previous' gs m} :=
    fun p hp => hp.imp ChainHashed.link ChainHashed.link
  have hfilter : ∀ p ∈ S, p.2.content ∈ {m | ChainHashed previous fs m ∨ ChainHashed previous' gs m} :=
    fun p hp => hp.imp (fun hp => .filter (HashChain.mem_of_mem_pairs hp))
      fun hp => .filter (HashChain.mem_of_mem_pairs hp)
  have hinj : S.InjOn fun p => step p.1 p.2 := by
    rintro ⟨x, f⟩ hp ⟨y, g⟩ hq heq
    have hmessage := hfree (hlink _ hp) (hlink _ hq) heq
    obtain ⟨hhash, hprevious⟩ := List.append_inj hmessage (by rw [U8Array.length_eq, U8Array.length_eq])
    have hcontent : f.content = g.content := hfree (hfilter _ hp) (hfilter _ hq) (U8Array.ext hhash)
    obtain rfl : x = y := U8Array.ext hprevious
    cases f
    cases g
    obtain rfl := hcontent
    rfl
  exact HashChain.eq_of_foldl_eq hinj hlen (fun p => Or.inl) (fun p => Or.inr) h

/-- A client that knows the header of the last filter asks any filters that lead to it for scripts.  Whoever it
received them from, each matches a query with a script that its block pays to or spends. -/
theorem client_misses_nothing {blocks : List Blockdata.Block} {made received : List BlockFilter}
    {previous previous' : FilterHeader}
    (hmade : List.Forall₂ (fun b f => BlockFilter.newScriptFilter b scriptForCoin = .ok f) blocks made)
    (hnm : ∀ b ∈ blocks, (elements b scriptForCoin).card * M.toNat < 2 ^ 64)
    (hlen : received.length = blocks.length) (hheader : lastHeader previous' received = lastHeader previous made)
    (hfree : Set.InjOn Sha256d.hash {m | ChainHashed previous' received m ∨ ChainHashed previous made m}) :
    previous' = previous ∧ ∀ (i : ℕ) (b : Blockdata.Block) (f : BlockFilter) (blockHash : BlockHash),
      blocks[i]? = some b → received[i]? = some f → b.header.blockHash = .ok blockHash →
      ∀ query, ∀ s ∈ query, s ∈ elements b scriptForCoin → f.matchAny blockHash query = .ok true := by
  obtain ⟨hprevious, rfl⟩ := eq_of_lastHeader_eq (hlen.trans hmade.length_eq) hfree hheader
  refine ⟨hprevious, fun i b f blockHash hb hf hhash query s hquery hs => ?_⟩
  obtain ⟨hi, rfl⟩ := List.getElem?_eq_some_iff.1 hb
  obtain ⟨hi', rfl⟩ := List.getElem?_eq_some_iff.1 hf
  have hmatch := matches_of_newScriptFilter hhash (hnm _ (List.getElem_mem hi)) (hmade.get hi hi')
  exact hmatch.matchAny_eq hquery hs

/-- The block after `sampleBlock`. -/
def sampleNext : Blockdata.Block where
  header := ⟨1, .replicate 32 0, .replicate 32 0, 1, 0, 0⟩
  txdata := [⟨1, .fromConsensus 0, [⟨⟨.replicate 32 0, 0xffffffff⟩, [], 0, .new⟩], [⟨50, [0x54]⟩]⟩]

def sampleNextFilter : BlockFilter := ⟨[1, 128, 211, 224]⟩

def sampleHash : FilterHash :=
  ⟨[41, 94, 55, 125, 237, 61, 232, 165, 88, 84, 208, 173, 79, 169, 220, 111, 59, 66, 170, 179, 120, 150, 198, 140,
    210, 16, 140, 70, 186, 39, 110, 5], rfl⟩

def sampleNextHash : FilterHash :=
  ⟨[53, 56, 41, 78, 63, 182, 10, 83, 110, 122, 28, 37, 117, 105, 154, 202, 128, 76, 222, 206, 39, 240, 45, 166, 60,
    215, 80, 213, 89, 249, 105, 3], rfl⟩

def sampleHeader : FilterHeader :=
  ⟨[68, 213, 136, 191, 231, 44, 161, 133, 128, 104, 163, 238, 127, 124, 96, 155, 87, 61, 65, 123, 97, 147, 148, 64,
    181, 55, 79, 207, 96, 15, 35, 215], rfl⟩

def sampleLastHeader : FilterHeader :=
  ⟨[0, 136, 155, 13, 47, 158, 160, 247, 2, 131, 228, 94, 212, 22, 203, 59, 70, 164, 148, 25, 233, 243, 123, 179, 0,
    124, 3, 206, 29, 63, 30, 193], rfl⟩

/-- What is hashed for the headers of the two filters. -/
def sampleMessages : List Bytes :=
  [sampleFilter.content, sampleNextFilter.content, sampleHash.toList ++ (U8Array.replicate 32 0).toList,
    sampleNextHash.toList ++ sampleHeader.toList]

/-- The second filter, its elements and the hashes of the messages, computed. -/
theorem sampleNext_computes :
    BlockFilter.newScriptFilter sampleNext sampleScripts = .ok sampleNextFilter ∧
      (elements sampleNext sampleScripts).card * M.toNat < 2 ^ 64 ∧ [0x54] ∈ elements sampleNext sampleScripts ∧
      sampleMessages.map Sha256d.hash = [sampleHash, sampleNextHash, sampleHeader, sampleLastHeader] := by
  decide +kernel

theorem hash_sampleMessages : Sha256d.hash sampleFilter.content = sampleHash ∧
    Sha256d.hash sampleNextFilter.content = sampleNextHash ∧
    sampleFilter.filterHeader (.replicate 32 0) = sampleHeader := by
  obtain ⟨-, -, -, h⟩ := sampleNext_computes
  obtain ⟨h₁, h⟩ := List.cons.inj h
  obtain ⟨h₂, h⟩ := List.cons.inj h
  obtain ⟨h₃, -⟩ := List.cons.inj h
  refine ⟨h₁, h₂, ?_⟩
  rw [BlockFilter.filterHeader, h₁]
  exact h₃

theorem mem_sampleMessages {m : Bytes}
    (h : ChainHashed (.replicate 32 0) [sampleFilter, sampleNextFilter] m) : m ∈ sampleMessages := by
  obtain ⟨hhash, hnext, hheader⟩ := hash_sampleMessages
  rcases h with hf | hp
  · rcases List.mem_cons.1 hf with rfl | hf
    · exact .head _
    · obtain rfl := List.mem_singleton.1 hf
      exact .tail _ (.head _)
  · rcases List.mem_cons.1 hp with rfl | hp
    · rw [hhash]
      exact .tail _ (.tail _ (.head _))
    · obtain rfl := List.mem_singleton.1 hp
      dsimp only
      rw [hnext, hheader]
      exact .tail _ (.tail _ (.tail _ (.head _)))

theorem free_sample : Set.InjOn Sha256d.hash {m | ChainHashed (.replicate 32 0) [sampleFilter, sampleNextFilter] m ∨
    ChainHashed (.replicate 32 0) [sampleFilter, sampleNextFilter] m} := by
  obtain ⟨-, -, -, hhashes⟩ := sampleNext_computes
  have hnodup : (sampleMessages.map Sha256d.hash).Nodup := by
    rw [hhashes]
    exact List.Nodup.of_map (fun h => h.toList.head?) (by decide)
  intro m hm m' hm' heq
  exact List.inj_on_of_nodup_map hnodup (mem_sampleMessages (or_self_iff.1 hm))
    (mem_sampleMessages (or_self_iff.1 hm')) heq

/-- A client that received the filters of both blocks finds the coin that the first spends and the output of the
second. -/
theorem client_misses_nothing_sample : ∃ blockHash nextHash, sampleBlock.header.blockHash = .ok blockHash ∧
    sampleNext.header.blockHash = .ok nextHash ∧ sampleFilter.matchAny blockHash [[0x55], [0x53]] = .ok true ∧
      sampleNextFilter.matchAny nextHash [[0x54]] = .ok true := by
  obtain ⟨blockHash, hhash⟩ := exists_blockHash sampleBlock.header
  obtain ⟨nextHash, hnext⟩ := exists_blockHash sampleNext.header
  obtain ⟨hfilter, hcard, hmem⟩ := sampleFilter_computes
  obtain ⟨hfilter', hcard', hmem', -⟩ := sampleNext_computes
  have hnm : ∀ b ∈ [sampleBlock, sampleNext], (elements b sampleScripts).card * M.toNat < 2 ^ 64 :=
    List.forall_mem_cons.2 ⟨hcard, List.forall_mem_singleton.2 hcard'⟩
  obtain ⟨-, hmatch⟩ := client_misses_nothing (List.Forall₂.cons hfilter (.cons hfilter' .nil)) hnm rfl rfl free_sample
  refine ⟨blockHash, nextHash, hhash, hnext, ?_, ?_⟩
  · exact hmatch 0 _ _ _ rfl rfl hhash _ [0x53] (List.mem_cons_of_mem _ (List.mem_singleton_self _)) hmem
  · exact hmatch 1 _ _ _ rfl rfl hnext _ [0x54] (List.mem_singleton_self _) hmem'

end Bip158

end RustDogecoin
