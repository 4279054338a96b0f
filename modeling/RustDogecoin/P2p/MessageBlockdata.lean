import RustDogecoin.Blockdata.Block

/-!
# Inventories

`Inventory` and the locator messages of `p2p/message_blockdata.rs`.  An item is written as a code and
a hash.  `Inventory::Error` is written with a hash of zeros too, but read without one, so lists with
an error in them are read back from what was written only if nothing but errors follows.
-/

namespace RustDogecoin

/-- An inventory item. -/
inductive Inventory where
  | error
  | transaction (txid : Txid)
  | block (hash : BlockHash)
  | compactBlock (hash : BlockHash)
  | wTx (wtxid : Wtxid)
  | witnessTransaction (txid : Txid)
  | witnessBlock (hash : BlockHash)
  | unknown (invType : UInt32) (hash : U8Array 32)
  deriving DecidableEq

namespace Inventory

def encodeInv (code : UInt32) (item : U8Array 32) : Outcome Empty Written := do
  let code ← u32.consensusEncode code
  let item ← (u8Array 32).consensusEncode item
  return code ++ item

def consensusEncode : Encoder Inventory
  | error => encodeInv 0 (.replicate 32 0)
  | transaction t => encodeInv 1 t
  | block b => encodeInv 2 b
  | compactBlock b => encodeInv 4 b
  | wTx w => encodeInv 5 w
  | witnessTransaction t => encodeInv 0x40000001 t
  | witnessBlock b => encodeInv 0x40000002 b
  | unknown t d => encodeInv t d

def consensusDecode : Read Inventory := do
  let invType ← u32.consensusDecode
  if invType = 0 then return .error
  else if invType = 1 then return .transaction (← (u8Array 32).consensusDecode)
  else if invType = 2 then return .block (← (u8Array 32).consensusDecode)
  else if invType = 4 then return .compactBlock (← (u8Array 32).consensusDecode)
  else if invType = 5 then return .wTx (← (u8Array 32).consensusDecode)
  else if invType = 0x40000001 then return .witnessTransaction (← (u8Array 32).consensusDecode)
  else if invType = 0x40000002 then return .witnessBlock (← (u8Array 32).consensusDecode)
  else return .unknown invType (← (u8Array 32).consensusDecode)

def codec : Codec Inventory := .ofDecode consensusEncode consensusDecode

/-! ## Codes -/

def code : Inventory → UInt32
  | error => 0
  | transaction _ => 1
  | block _ => 2
  | compactBlock _ => 4
  | wTx _ => 5
  | witnessTransaction _ => 0x40000001
  | witnessBlock _ => 0x40000002
  | unknown t _ => t

/-- The hash that is written, which is zero for an error. -/
def hash : Inventory → U8Array 32
  | error => .replicate 32 0
  | transaction t => t
  | block b => b
  | compactBlock b => b
  | wTx w => w
  | witnessTransaction t => t
  | witnessBlock b => b
  | unknown _ d => d

/-- The item with the given code and hash. -/
def ofCode (t : UInt32) (d : U8Array 32) : Inventory :=
  if t = 0 then .error
  else if t = 1 then .transaction d
  else if t = 2 then .block d
  else if t = 4 then .compactBlock d
  else if t = 5 then .wTx d
  else if t = 0x40000001 then .witnessTransaction d
  else if t = 0x40000002 then .witnessBlock d
  else .unknown t d

/-- Items that the decoder can return: an unknown code is not one of the known ones. -/
def Representable : Inventory → Prop
  | unknown t _ =>
    t ≠ 0 ∧ t ≠ 1 ∧ t ≠ 2 ∧ t ≠ 4 ∧ t ≠ 5 ∧ t ≠ 0x40000001 ∧ t ≠ 0x40000002
  | _ => True

/-- The bytes of an item. -/
def bytes (i : Inventory) : Bytes := leBytes 4 i.code.toNat ++ i.hash.toList

theorem consensusEncode_eq (i : Inventory) : consensusEncode i = .ok ⟨i.bytes, 36⟩ := by
  have h : ∀ (t : UInt32) (d : U8Array 32),
      encodeInv t d = .ok ⟨leBytes 4 t.toNat ++ d.toList, 4 + d.toList.length⟩ := fun _ _ => rfl
  cases i <;> simp only [consensusEncode, h, U8Array.length_eq] <;> rfl

theorem length_bytes (i : Inventory) : i.bytes.length = 36 := by simp [bytes]

theorem consensusDecode_eq : consensusDecode = (u32.consensusDecode >>= fun t =>
    if t = 0 then pure .error else ofCode t <$> (u8Array 32).consensusDecode) := by
  unfold consensusDecode
  congr 1
  funext t
  unfold ofCode
  split_ifs <;> rfl

theorem ofCode_code_hash {i : Inventory} (hi : i.Representable) : ofCode i.code i.hash = i := by
  cases i with
  | unknown t d =>
    obtain ⟨h₀, h₁, h₂, h₄, h₅, h₆, h₇⟩ := hi
    simp [ofCode, code, hash, h₀, h₁, h₂, h₄, h₅, h₆, h₇]
  | _ => rfl

theorem code_ofCode {t : UInt32} (d : U8Array 32) : (ofCode t d).code = t := by
  unfold ofCode
  split_ifs <;> simp_all [code]

theorem hash_ofCode {t : UInt32} (ht : t ≠ 0) (d : U8Array 32) : (ofCode t d).hash = d := by
  rw [ofCode, if_neg ht]
  split_ifs <;> rfl

theorem representable_ofCode (t : UInt32) (d : U8Array 32) : (ofCode t d).Representable := by
  unfold ofCode
  split_ifs <;> trivial

theorem code_eq_zero_iff {i : Inventory} (hi : i.Representable) : i.code = 0 ↔ i = .error := by
  constructor
  · intro h
    rw [← ofCode_code_hash hi, h]
    rfl
  · rintro rfl
    rfl

/-- Four zeros are read as an error, with nothing after them. -/
theorem run_zeros (rest : Bytes) : consensusDecode.run ([0, 0, 0, 0] ++ rest) = .ok (.error, rest) :=
  Decoder.run_bind_of_ok (run_u32 0 rest)

/-- Items other than errors are read as they are written. -/
theorem roundTrips :
    RoundTrips consensusEncode consensusDecode fun i => i.Representable ∧ i ≠ .error := by
  rintro i w ⟨hi, hne⟩ e rest
  obtain rfl := Outcome.ok.inj ((consensusEncode_eq i).symm.trans e)
  have hcode : i.code ≠ 0 := fun h => hne ((code_eq_zero_iff hi).1 h)
  rw [bytes, List.append_assoc, consensusDecode_eq, Decoder.run_bind_of_ok (run_u32 i.code _),
    if_neg hcode]
  exact Decoder.run_map_eq_ok_iff.2 ⟨i.hash, run_u8Array i.hash rest, ofCode_code_hash hi⟩

/-- What is read is four zeros or an item as it is written. -/
theorem of_consensusDecode {bs rest : Bytes} {i : Inventory}
    (h : consensusDecode.run bs = .ok (i, rest)) : i.Representable ∧
      ((i = .error ∧ bs = [0, 0, 0, 0] ++ rest) ∨ (i ≠ .error ∧ bs = i.bytes ++ rest)) := by
  rw [consensusDecode_eq] at h
  obtain ⟨t, mid, ht, hitem⟩ := Decoder.run_bind_eq_ok_iff.1 h
  obtain rfl := eq_of_run_u32 ht
  split_ifs at hitem with hzero
  · cases hitem
    subst hzero
    exact ⟨trivial, .inl ⟨rfl, rfl⟩⟩
  · obtain ⟨d, hd, rfl⟩ := Decoder.run_map_eq_ok_iff.1 hitem
    obtain rfl := eq_of_run_u8Array hd
    have hrep := representable_ofCode t d
    refine ⟨hrep, .inr ⟨fun he => hzero ?_, ?_⟩⟩
    · exact (code_ofCode d).symm.trans ((code_eq_zero_iff hrep).2 he)
    · rw [bytes, code_ofCode, hash_ofCode hzero, List.append_assoc]

/-! ## Lists of items -/

theorem consensusEncode_list (items : List Inventory) :
    consensusEncode.list items = .ok ⟨items.flatMap bytes, 36 * items.length⟩ := by
  induction items with
  | nil => rfl
  | cons i items ih =>
    refine Encoder.list_cons_eq_ok_iff.2 ⟨_, _, consensusEncode_eq i, ih, ?_⟩
    rw [List.flatMap_cons, List.length_cons, Nat.mul_succ, Nat.add_comm]
    rfl

theorem flatMap_bytes_replicate_error (k : ℕ) :
    (List.replicate k error).flatMap bytes = List.replicate (36 * k) 0 := by
  induction k with
  | zero => rfl
  | succ k ih =>
    rw [List.replicate_succ, List.flatMap_cons, ih, Nat.mul_succ, Nat.add_comm,
      ← List.replicate_append_replicate]
    rfl

theorem replicate_four_zeros (k : ℕ) :
    List.replicate (4 * (k + 1)) (0 : UInt8) = [0, 0, 0, 0] ++ List.replicate (4 * k) 0 := by
  rw [Nat.mul_succ, Nat.add_comm, ← List.replicate_append_replicate]
  rfl

/-- Where the decoder stands before zeros it reads errors, and if it is to read back the items that
were written there, these were errors too: each of them puts more zeros in front of the rest. -/
theorem eq_error_of_zeros {items : List Inventory} {z : ℕ} {tail rest : Bytes} (hz : 4 ≤ z)
    (h : (consensusDecode.times items.length).run
      (List.replicate z 0 ++ (items.flatMap bytes ++ tail)) = .ok (items, rest)) :
    items = List.replicate items.length .error := by
  induction items generalizing z with
  | nil => rfl
  | cons i items ih =>
    obtain ⟨z, rfl⟩ := Nat.exists_eq_add_of_le hz
    rw [← List.replicate_append_replicate, List.append_assoc, List.length_cons] at h
    obtain ⟨j, js, mid, hcons, hj, hjs⟩ := Decoder.run_times_succ_eq_ok_iff.1 h
    cases hcons
    obtain ⟨rfl, rfl⟩ : Inventory.error = i ∧ _ = mid := by
      simpa using (run_zeros _).symm.trans hj
    have hmore : List.replicate z 0 ++ (error.bytes ++ (items.flatMap bytes ++ tail)) =
        List.replicate (z + 36) 0 ++ (items.flatMap bytes ++ tail) := by
      rw [← List.replicate_append_replicate, List.append_assoc]
      rfl
    rw [hmore] at hjs
    rw [List.length_cons, List.replicate_succ, ← ih (by omega) hjs]

/-- A list that is read back from what was written has its errors at the end. -/
theorem errors_last {items : List Inventory} {tail rest : Bytes}
    (h : (consensusDecode.times items.length).run (items.flatMap bytes ++ tail) = .ok (items, rest)) :
    ∃ good k, items = good ++ List.replicate k .error ∧
      ∀ i ∈ good, i.Representable ∧ i ≠ .error := by
  induction items with
  | nil => exact ⟨[], 0, rfl, by simp⟩
  | cons i items ih =>
    rw [List.flatMap_cons, List.append_assoc, List.length_cons] at h
    obtain ⟨j, js, mid, hcons, hj, hjs⟩ := Decoder.run_times_succ_eq_ok_iff.1 h
    cases hcons
    obtain ⟨hrep, ⟨rfl, hmid⟩ | ⟨hne, hmid⟩⟩ := of_consensusDecode hj
    · have hsplit : error.bytes = [0, 0, 0, 0] ++ List.replicate 32 0 := rfl
      rw [hsplit, List.append_assoc] at hmid
      obtain rfl := List.append_cancel_left hmid
      refine ⟨[], items.length + 1, ?_, by simp⟩
      rw [List.nil_append, List.replicate_succ, ← eq_error_of_zeros (by decide) hjs]
    · obtain rfl := List.append_cancel_left hmid
      obtain ⟨good, k, rfl, hgood⟩ := ih hjs
      refine ⟨i :: good, k, rfl, ?_⟩
      intro j hmem
      rcases List.mem_cons.1 hmem with rfl | hmem
      · exact ⟨hrep, hne⟩
      · exact hgood j hmem

/-- Errors are read off zeros, four for each. -/
theorem run_errors (k : ℕ) (rest : Bytes) :
    (consensusDecode.times k).run (List.replicate (4 * k) 0 ++ rest) =
      .ok (List.replicate k .error, rest) := by
  induction k with
  | zero => rfl
  | succ k ih =>
    rw [replicate_four_zeros, List.append_assoc, Decoder.run_times_succ_eq_ok_iff]
    exact ⟨.error, _, _, rfl, run_zeros _, ih⟩

/-- Errors after other items are read off zeros. -/
theorem run_good_errors {good : List Inventory} (hgood : ∀ i ∈ good, i.Representable ∧ i ≠ .error)
    (k : ℕ) (rest : Bytes) : (consensusDecode.times (good.length + k)).run
      (good.flatMap bytes ++ (List.replicate (4 * k) 0 ++ rest)) =
        .ok (good ++ List.replicate k .error, rest) := by
  induction good with
  | nil =>
    rw [List.length_nil, Nat.zero_add]
    exact run_errors k rest
  | cons i good ih =>
    have hi := roundTrips i _ (hgood i List.mem_cons_self) (consensusEncode_eq i)
      (good.flatMap bytes ++ (List.replicate (4 * k) 0 ++ rest))
    have htail := ih fun j hj => hgood j (List.mem_cons_of_mem _ hj)
    rw [List.length_cons, Nat.succ_add, List.flatMap_cons, List.append_assoc,
      Decoder.run_times_succ_eq_ok_iff]
    exact ⟨i, _, _, rfl, hi, htail⟩

/-- Nothing but errors follows an error. -/
def ErrorsLast (items : List Inventory) : Prop := items.Pairwise fun i j => i = error → j = error

theorem errorsLast_iff {items : List Inventory} :
    ErrorsLast items ↔ ∃ good k, items = good ++ List.replicate k error ∧ ∀ i ∈ good, i ≠ error := by
  constructor
  · intro h
    induction items with
    | nil => exact ⟨[], 0, rfl, by simp⟩
    | cons i items ih =>
      obtain ⟨hi, htail⟩ := List.pairwise_cons.1 h
      by_cases herr : i = error
      · have hall : items = List.replicate items.length error :=
          List.eq_replicate_iff.2 ⟨rfl, fun j hj => hi j hj herr⟩
        exact ⟨[], items.length + 1, by rw [herr, List.replicate_succ, ← hall, List.nil_append], by simp⟩
      · obtain ⟨good, k, rfl, hgood⟩ := ih htail
        exact ⟨i :: good, k, rfl, List.forall_mem_cons.2 ⟨herr, hgood⟩⟩
  · rintro ⟨good, k, rfl, hgood⟩
    refine List.pairwise_append.2 ⟨?_, List.pairwise_replicate.2 (.inr fun _ => rfl), ?_⟩
    · exact List.pairwise_of_forall_mem_list fun i hi _ _ herr => absurd herr (hgood i hi)
    · intro i hi _ _ herr
      exact absurd herr (hgood i hi)

theorem representable_of_times {n : ℕ} {items : List Inventory} {bs rest : Bytes}
    (h : (consensusDecode.times n).run bs = .ok (items, rest)) : ∀ i ∈ items, i.Representable := by
  induction n generalizing bs items with
  | zero =>
    cases h
    simp
  | succ n ih =>
    obtain ⟨i, is, mid, rfl, hi, his⟩ := Decoder.run_times_succ_eq_ok_iff.1 h
    intro j hj
    rcases List.mem_cons.1 hj with rfl | hj
    · exact (of_consensusDecode hi).1
    · exact ih his j hj

theorem eq_zeros_of_times {k : ℕ} {bs rest : Bytes}
    (h : (consensusDecode.times k).run bs = .ok (List.replicate k .error, rest)) :
    bs = List.replicate (4 * k) 0 ++ rest := by
  induction k generalizing bs with
  | zero =>
    cases h
    rfl
  | succ k ih =>
    obtain ⟨i, is, mid, hcons, hi, his⟩ := Decoder.run_times_succ_eq_ok_iff.1 h
    cases hcons
    obtain ⟨-, ⟨-, rfl⟩ | ⟨hne, -⟩⟩ := of_consensusDecode hi
    · rw [ih his, replicate_four_zeros, List.append_assoc]
    · exact absurd rfl hne

/-- The bytes that a list with its errors at the end was read from. -/
theorem eq_of_times_good_errors {good : List Inventory} (hgood : ∀ i ∈ good, i ≠ .error) {k : ℕ}
    {bs rest : Bytes} (h : (consensusDecode.times (good.length + k)).run bs =
      .ok (good ++ List.replicate k .error, rest)) :
    bs = good.flatMap bytes ++ (List.replicate (4 * k) 0 ++ rest) := by
  induction good generalizing bs with
  | nil =>
    rw [List.length_nil, Nat.zero_add] at h
    exact eq_zeros_of_times h
  | cons i good ih =>
    rw [List.length_cons, Nat.succ_add] at h
    obtain ⟨j, js, mid, hcons, hj, hjs⟩ := Decoder.run_times_succ_eq_ok_iff.1 h
    cases hcons
    obtain ⟨-, ⟨rfl, -⟩ | ⟨-, rfl⟩⟩ := of_consensusDecode hj
    · exact absurd rfl (hgood _ List.mem_cons_self)
    · rw [ih (fun k hk => hgood k (List.mem_cons_of_mem _ hk)) hjs, List.flatMap_cons,
        List.append_assoc]

/-- A code other than zero and a hash are the bytes of an item. -/
theorem exists_bytes_eq {entry : Bytes} (hlen : entry.length = 36)
    (hcode : entry.take 4 ≠ [0, 0, 0, 0]) :
    ∃ i : Inventory, (i.Representable ∧ i ≠ .error) ∧ i.bytes = entry := by
  have htake : (entry.take 4).length = 4 := by simp [hlen]
  have hback := leBytes_leNat (entry.take 4)
  have hlt := leNat_lt (entry.take 4)
  rw [htake] at hback hlt
  set t := UInt32.ofNat (leNat (entry.take 4)) with ht
  have hnat : t.toNat = leNat (entry.take 4) := UInt32.toNat_ofNat_of_lt' hlt
  have hne : t ≠ 0 := by
    intro h
    apply hcode
    rw [← hback, ← hnat, h]
    rfl
  have hrep := representable_ofCode t ⟨entry.drop 4, by simp [hlen]⟩
  refine ⟨_, ⟨hrep, fun h => hne ?_⟩, ?_⟩
  · exact (code_ofCode _).symm.trans ((code_eq_zero_iff hrep).2 h)
  · rw [bytes, code_ofCode, hash_ofCode hne, hnat, hback]
    exact List.take_append_drop 4 entry

theorem take_bytes_ne {i : Inventory} (hi : i.Representable) (hne : i ≠ .error) :
    i.bytes.take 4 ≠ [0, 0, 0, 0] := by
  intro h
  rw [bytes, List.take_left' (length_leBytes 4 _)] at h
  have hzero := leBytes_injective i.code.toNat_lt (by decide) (h.trans (rfl : _ = leBytes 4 0))
  exact hne ((code_eq_zero_iff hi).1 (UInt32.toNat_inj.1 hzero))

theorem exists_map_bytes {entries : List Bytes}
    (h : ∀ e ∈ entries, e.length = 36 ∧ e.take 4 ≠ [0, 0, 0, 0]) :
    ∃ good : List Inventory, (∀ i ∈ good, i.Representable ∧ i ≠ .error) ∧
      good.map bytes = entries := by
  induction entries with
  | nil => exact ⟨[], by simp, rfl⟩
  | cons e entries ih =>
    obtain ⟨hlen, hcode⟩ := h e List.mem_cons_self
    obtain ⟨i, hi, rfl⟩ := exists_bytes_eq hlen hcode
    obtain ⟨good, hgood, rfl⟩ := ih fun e he => h e (List.mem_cons_of_mem _ he)
    refine ⟨i :: good, ?_, rfl⟩
    intro j hj
    rcases List.mem_cons.1 hj with rfl | hj
    · exact hi
    · exact hgood j hj

/-- `raw` is a list of entries of a code, not zero, and a hash, then `k` codes of zero, then the
`32 * k` bytes that would make entries of these; in `written` these bytes are zeros too. -/
def Padded (written raw : Bytes) : Prop :=
  ∃ (entries : List Bytes) (k : ℕ) (len : Written) (tail : Bytes),
    encodeLen (entries.length + k) = .ok len ∧
    (∀ e ∈ entries, e.length = 36 ∧ e.take 4 ≠ [0, 0, 0, 0]) ∧ tail.length = 32 * k ∧
    raw = len.bytes ++ (entries.flatten ++ (List.replicate (4 * k) 0 ++ tail)) ∧
    written = len.bytes ++ (entries.flatten ++ List.replicate (36 * k) 0)

theorem counts : Counts consensusEncode := by
  intro i w e
  obtain rfl := Outcome.ok.inj ((consensusEncode_eq i).symm.trans e)
  exact (length_bytes i).symm

theorem counts_list : Counts (vec codec).consensusEncode := lawful_len.counts.counted counts

/-- Lists without errors are read as they are written. -/
theorem roundTrips_list :
    RoundTrips (vec codec).consensusEncode (vec codec).consensusDecodeFromFiniteReader
      fun items => (∀ i ∈ items, i.Representable) ∧ error ∉ items := by
  apply (lawful_len.roundTrips.counted roundTrips).mono
  rintro items ⟨hrep, herr⟩
  refine ⟨trivial, fun i hi => ⟨hrep i hi, ?_⟩⟩
  rintro rfl
  exact herr hi

theorem representable_of_list {raw rest : Bytes} {items : List Inventory}
    (h : (vec codec).consensusDecodeFromFiniteReader.run raw = .ok (items, rest)) :
    ∀ i ∈ items, i.Representable := by
  obtain ⟨n, mid, -, htimes⟩ := Decoder.run_bind_eq_ok_iff.1 h
  exact representable_of_times htimes

theorem zeros_split (k : ℕ) :
    List.replicate (36 * k) (0 : UInt8) = List.replicate (4 * k) 0 ++ List.replicate (32 * k) 0 := by
  rw [List.replicate_append_replicate]
  congr 1
  omega

/-- The bytes of a list with its errors at the end. -/
theorem flatMap_bytes_good_errors (good : List Inventory) (k : ℕ) :
    (good ++ List.replicate k error).flatMap bytes =
      (good.map bytes).flatten ++ List.replicate (36 * k) 0 := by
  rw [List.flatMap_append, flatMap_bytes_replicate_error, List.flatMap_def]

/-- The finite-reader decoder reads the lists back in which only errors follow an error.  Of each error
there 32 zeros are left over. -/
theorem run_encode_iff {items : List Inventory} {w : Written}
    (hw : (vec codec).consensusEncode items = .ok w) :
    (∃ rest, (vec codec).consensusDecodeFromFiniteReader.run w.bytes = .ok (items, rest)) ↔
      (∀ i ∈ items, i.Representable) ∧ ErrorsLast items := by
  obtain ⟨l, v, hl, hv, rfl⟩ := Encoder.counted_eq_ok_iff.1 hw
  obtain rfl := Outcome.ok.inj ((consensusEncode_list items).symm.trans hv)
  have hrun : (vec codec).consensusDecodeFromFiniteReader.run (l.bytes ++ items.flatMap bytes) =
      (consensusDecode.times items.length).run (items.flatMap bytes) :=
    Decoder.run_bind_of_ok (lawful_len.roundTrips _ l trivial hl _)
  rw [Written.bytes_append, hrun]
  constructor
  · rintro ⟨rest, h⟩
    refine ⟨representable_of_times h, errorsLast_iff.2 ?_⟩
    rw [← List.append_nil (items.flatMap bytes)] at h
    obtain ⟨good, k, hitems, hgood⟩ := errors_last h
    exact ⟨good, k, hitems, fun i hi => (hgood i hi).2⟩
  · rintro ⟨hrep, hlast⟩
    obtain ⟨good, k, rfl, hgood⟩ := errorsLast_iff.1 hlast
    refine ⟨List.replicate (32 * k) 0, ?_⟩
    rw [flatMap_bytes_good_errors, zeros_split, ← List.flatMap_def, List.length_append,
      List.length_replicate]
    exact run_good_errors (fun i hi => ⟨hrep i (List.mem_append_left _ hi), hgood i hi⟩) k _

/-- Two readings of the same bytes with the same number of items. -/
theorem eq_of_run_counted {n m : ℕ} {l len : Written} {mid mid' : Bytes}
    (hl : encodeLen n = .ok l) (hlen : encodeLen m = .ok len)
    (h : l.bytes ++ mid = len.bytes ++ mid') : n = m ∧ l = len ∧ mid = mid' := by
  have hn := lawful_len.roundTrips n l trivial hl mid
  have hm := lawful_len.roundTrips m len trivial hlen mid'
  rw [h] at hn
  obtain ⟨rfl, rfl⟩ : n = m ∧ mid = mid' := by simpa using hn.symm.trans hm
  exact ⟨rfl, Outcome.ok.inj (hl.symm.trans hlen), rfl⟩

/-- When the encoder writes as many bytes for a list as the list was read from, and the list is read
back from them. -/
theorem reads_back_iff {raw rest : Bytes} {items : List Inventory}
    (h : (vec codec).consensusDecodeFromFiniteReader.run raw = .ok (items, rest)) :
    ∃ w, (vec codec).consensusEncode items = .ok w ∧ ∀ written, Padded written raw ↔
      written = w.bytes ∧ w.bytes.length = raw.length ∧
        ∃ r, (vec codec).consensusDecodeFromFiniteReader.run w.bytes = .ok (items, r) := by
  obtain ⟨n, mid, hn, htimes⟩ := Decoder.run_bind_eq_ok_iff.1 h
  obtain rfl := Decoder.length_of_times htimes
  obtain ⟨-, l, hl, rfl⟩ := lawful_len.canonical _ _ _ hn
  have hrun : ∀ bs, (vec codec).consensusDecodeFromFiniteReader.run (l.bytes ++ bs) =
      (consensusDecode.times items.length).run bs := fun bs =>
    Decoder.run_bind_of_ok (lawful_len.roundTrips _ l trivial hl bs)
  change (consensusDecode.times items.length).run mid = .ok (items, rest) at htimes
  refine ⟨_, Encoder.counted_eq_ok_iff.2 ⟨l, _, hl, consensusEncode_list items, rfl⟩, ?_⟩
  intro written
  rw [Written.bytes_append, hrun, List.length_append, List.length_append, Nat.add_left_cancel_iff]
  constructor
  · rintro ⟨entries, k, len, tail, hlen, hentries, htail, hraw, rfl⟩
    obtain ⟨good, hgood, rfl⟩ := exists_map_bytes hentries
    obtain ⟨hcount, rfl, rfl⟩ := eq_of_run_counted hl hlen hraw
    have hread := run_good_errors hgood k
    rw [List.length_map] at hcount
    rw [← List.flatMap_def, hcount, hread tail] at htimes
    obtain rfl := (Prod.mk.inj (Outcome.ok.inj htimes)).1
    refine ⟨?_, ?_, List.replicate (32 * k) 0, ?_⟩
    · rw [flatMap_bytes_good_errors]
    · rw [flatMap_bytes_good_errors]
      simp only [List.length_append, List.length_replicate, htail]
      omega
    · rw [flatMap_bytes_good_errors, zeros_split, ← List.flatMap_def, hcount]
      exact hread _
  · rintro ⟨rfl, hlength, r, hback⟩
    rw [← List.append_nil (items.flatMap bytes)] at hback
    obtain ⟨good, k, rfl, hgood⟩ := errors_last hback
    rw [List.length_append, List.length_replicate] at htimes hl
    obtain rfl := eq_of_times_good_errors (fun i hi => (hgood i hi).2) htimes
    rw [flatMap_bytes_good_errors] at hlength ⊢
    refine ⟨good.map bytes, k, l, rest, ?_, ?_, ?_, ?_, rfl⟩
    · rwa [List.length_map]
    · intro e he
      obtain ⟨i, hi, rfl⟩ := List.mem_map.1 he
      exact ⟨length_bytes i, take_bytes_ne (hgood i hi).1 (hgood i hi).2⟩
    · rw [List.flatMap_def] at hlength
      simp only [List.length_append, List.length_replicate] at hlength
      omega
    · rw [List.flatMap_def]

/-- The decoder reads a list back from its encoding, and no byte more or less. -/
def ReadsListBack (dec : Read (List Inventory)) (items : List Inventory) (w : Written) : Prop :=
  dec.run w.bytes = .ok (items, [])

/-- A list that is read back from the whole of its encoding has no errors, since 32 bytes of each
would be left over, and unknown items with unknown codes only. -/
theorem of_readsListBack {items : List Inventory} {w : Written}
    (hw : (vec codec).consensusEncode items = .ok w)
    (h : ReadsListBack (vec codec).consensusDecodeFromFiniteReader items w) :
    (∀ i ∈ items, i.Representable) ∧ error ∉ items := by
  have hrep := representable_of_list h
  obtain ⟨l, v, hl, hv, rfl⟩ := Encoder.counted_eq_ok_iff.1 hw
  obtain rfl := Outcome.ok.inj ((consensusEncode_list items).symm.trans hv)
  have htimes : (consensusDecode.times items.length).run (items.flatMap bytes) = .ok (items, []) :=
    (Decoder.run_bind_of_ok (lawful_len.roundTrips _ l trivial hl _)).symm.trans h
  have happend : (consensusDecode.times items.length).run (items.flatMap bytes ++ []) =
      .ok (items, []) := by rwa [List.append_nil]
  obtain ⟨good, k, rfl, hgood⟩ := errors_last happend
  rw [List.length_append, List.length_replicate] at htimes
  have hread := eq_of_times_good_errors (fun i hi => (hgood i hi).2) htimes
  have hk : k = 0 := by
    have hlen := congrArg List.length hread
    rw [flatMap_bytes_good_errors, ← List.flatMap_def] at hlen
    simp only [List.length_append, List.length_replicate, List.length_nil] at hlen
    omega
  subst hk
  refine ⟨hrep, fun herr => ?_⟩
  rw [List.replicate_zero, List.append_nil] at herr
  exact (hgood error herr).2 rfl

/-- Which lists come back: those without errors and without known codes in unknown items, and as far
as the decoder of a whole message part is concerned, those that it reads far enough. -/
theorem readsListBack_iff (items : List Inventory) (w : Written)
    (hw : (vec codec).consensusEncode items = .ok w) :
    (ReadsListBack (vec codec).consensusDecodeFromFiniteReader items w ↔
      (∀ i ∈ items, i.Representable) ∧ error ∉ items) ∧
    (ReadsListBack (vec codec).consensusDecode items w ↔
      ((∀ i ∈ items, i.Representable) ∧ error ∉ items) ∧ w.bytes.length ≤ MAX_VEC_SIZE) := by
  have hback : (∀ i ∈ items, i.Representable) ∧ error ∉ items →
      ReadsListBack (vec codec).consensusDecodeFromFiniteReader items w := by
    intro hgood
    have hrun := roundTrips_list items w hgood hw []
    rwa [List.append_nil] at hrun
  refine ⟨⟨of_readsListBack hw, hback⟩, ?_⟩
  constructor
  · intro h
    obtain ⟨r, -, hrest⟩ := Decoder.run_limit_eq_ok_iff.1 h
    have hle : w.bytes.length ≤ MAX_VEC_SIZE :=
      List.drop_eq_nil_iff.1 (List.append_eq_nil_iff.1 hrest.symm).2
    exact ⟨of_readsListBack hw ((Decoder.run_limit_of_le _ hle).symm.trans h), hle⟩
  · rintro ⟨hgood, hle⟩
    exact (Decoder.run_limit_of_le _ hle).trans (hback hgood)

/-- A block and a transaction: one byte for their number, and 36 for each. -/
theorem readsListBack_iff_pair :
    (ReadsListBack (vec codec).consensusDecodeFromFiniteReader [block (.replicate 32 1), wTx (.replicate 32 2)]
        ⟨2 :: [block (.replicate 32 1), wTx (.replicate 32 2)].flatMap bytes, 73⟩ ↔
      (∀ i ∈ [block (.replicate 32 1), wTx (.replicate 32 2)], i.Representable) ∧
        error ∉ [block (.replicate 32 1), wTx (.replicate 32 2)]) ∧
    (ReadsListBack (vec codec).consensusDecode [block (.replicate 32 1), wTx (.replicate 32 2)]
        ⟨2 :: [block (.replicate 32 1), wTx (.replicate 32 2)].flatMap bytes, 73⟩ ↔
      ((∀ i ∈ [block (.replicate 32 1), wTx (.replicate 32 2)], i.Representable) ∧
        error ∉ [block (.replicate 32 1), wTx (.replicate 32 2)]) ∧
        (2 :: [block (.replicate 32 1), wTx (.replicate 32 2)].flatMap bytes).length ≤
          MAX_VEC_SIZE) :=
  readsListBack_iff _ _ (by decide)

/-- After the code of an error, the 32 zeros that follow it are read as more errors, and the
transaction is not reached. -/
theorem not_readsListBack_error :
    (vec codec).consensusEncode [error, wTx (.replicate 32 1)] =
      .ok ⟨2 :: (error.bytes ++ (wTx (.replicate 32 1)).bytes), 73⟩ ∧
    (vec codec).consensusDecode.run (2 :: (error.bytes ++ (wTx (.replicate 32 1)).bytes)) =
      .ok ([error, error], List.replicate 28 0 ++ (wTx (.replicate 32 1)).bytes) ∧
    ¬ ReadsListBack (vec codec).consensusDecode [error, wTx (.replicate 32 1)]
        ⟨2 :: (error.bytes ++ (wTx (.replicate 32 1)).bytes), 73⟩ := by
  refine ⟨by decide, by decide, ?_⟩
  unfold ReadsListBack
  decide

-- An unknown item with the code of a transaction is read back as the transaction.
example :
    (vec codec).consensusEncode [unknown 1 (.replicate 32 7)] =
      .ok ⟨1 :: (unknown 1 (.replicate 32 7)).bytes, 37⟩ ∧
    (vec codec).consensusDecode.run (1 :: (unknown 1 (.replicate 32 7)).bytes) =
      .ok ([transaction (.replicate 32 7)], []) := by
  decide

end Inventory

/-! ## Locators -/

/-- The `getblocks` message. -/
structure GetBlocksMessage where
  version : UInt32
  locatorHashes : List BlockHash
  stopHash : BlockHash
  deriving DecidableEq

def GetBlocksMessage.equiv : GetBlocksMessage ≃ UInt32 × List BlockHash × BlockHash where
  toFun m := (m.version, m.locatorHashes, m.stopHash)
  invFun p := ⟨p.1, p.2.1, p.2.2⟩
  left_inv _ := rfl
  right_inv _ := rfl

def GetBlocksMessage.codec : Codec GetBlocksMessage :=
  implConsensusEncoding GetBlocksMessage.equiv (u32.seq ((vec (u8Array 32)).seq (u8Array 32)))

theorem GetBlocksMessage.lawful : GetBlocksMessage.codec.IsLawful fun _ => True :=
  ((lawful_u32.seq ((lawful_vec (lawful_u8Array 32)).seq (lawful_u8Array 32))).implConsensusEncoding
    GetBlocksMessage.equiv).congr fun _ => by simp

/-- The `getheaders` message. -/
structure GetHeadersMessage where
  version : UInt32
  locatorHashes : List BlockHash
  stopHash : BlockHash
  deriving DecidableEq

def GetHeadersMessage.equiv : GetHeadersMessage ≃ UInt32 × List BlockHash × BlockHash where
  toFun m := (m.version, m.locatorHashes, m.stopHash)
  invFun p := ⟨p.1, p.2.1, p.2.2⟩
  left_inv _ := rfl
  right_inv _ := rfl

def GetHeadersMessage.codec : Codec GetHeadersMessage :=
  implConsensusEncoding GetHeadersMessage.equiv (u32.seq ((vec (u8Array 32)).seq (u8Array 32)))

theorem GetHeadersMessage.lawful : GetHeadersMessage.codec.IsLawful fun _ => True :=
  ((lawful_u32.seq ((lawful_vec (lawful_u8Array 32)).seq (lawful_u8Array 32))).implConsensusEncoding
    GetHeadersMessage.equiv).congr fun _ => by simp

end RustDogecoin
