import RustDogecoin.Consensus.Encode

/-!
# Witnesses

`Witness` of `blockdata/witness.rs` keeps its elements in one vector: the elements with their
lengths in front, followed by the position of each of them.  `pack` is that layout of a list of
byte strings.  The decoder fills a vector that has the positions in front and turns it round at the
end; `decodeStep_of_inv` is what one turn of its loop does to the layout, and from it
`Witness.lawful` says that the decoder inverts the encoder on every witness whose elements take at
most `MAX_VEC_SIZE` bytes.
-/

namespace RustDogecoin

/-! ## Layout -/

/-- The fields of `Witness`. -/
structure WitnessRepr where
  content : Bytes
  witnessElements : ℕ
  indicesStart : ℕ
  deriving DecidableEq, Repr

/-- An element with its length in front. -/
def elementBytes (elem : Bytes) : Bytes := (VarInt.written ⟨UInt64.ofNat elem.length⟩).bytes ++ elem

/-- The positions of the elements, the first of them at `cursor`. -/
def cursors : ℕ → List Bytes → List ℕ
  | _, [] => []
  | cursor, elem :: elems => cursor :: cursors (cursor + (elementBytes elem).length) elems

/-- The index area. -/
def indexBytes (elems : List Bytes) : Bytes := (cursors 0 elems).flatMap (leBytes 4)

/-- The packed form of a list of elements. -/
def pack (elems : List Bytes) : WitnessRepr where
  content := elems.flatMap elementBytes ++ indexBytes elems
  witnessElements := elems.length
  indicesStart := (elems.flatMap elementBytes).length

/-- Lists of elements that have a packed form: lengths are `usize`, positions are `u32`. -/
structure Packable (elems : List Bytes) : Prop where
  length_lt : ∀ elem ∈ elems, elem.length < 2 ^ 64
  cursor_lt : ∀ cursor ∈ cursors 0 elems, cursor < 2 ^ 32

/-- A witness is the packed form of a list of elements. -/
structure Witness where
  repr : WitnessRepr
  packed : ∃ elems, Packable elems ∧ repr = pack elems

namespace Witness

@[ext] theorem ext {w w' : Witness} (h : w.repr = w'.repr) : w = w' := by
  cases w
  cases w'
  cases h
  rfl

instance : DecidableEq Witness := fun w w' => decidable_of_iff (w.repr = w'.repr) ⟨ext, congrArg repr⟩

/-- `Witness::new`. -/
def new : Witness := ⟨⟨[], 0, 0⟩, [], ⟨by simp, by simp [cursors]⟩, rfl⟩

/-- `Witness::is_empty`. -/
def isEmpty (w : Witness) : Bool := w.repr.witnessElements == 0

end Witness

/-! ## Codec -/

/-- `content[i..i + piece.len()].copy_from_slice(piece)`. -/
def copyFromSlice {ε : Type} (content : Bytes) (i : ℕ) (piece : Bytes) : Outcome ε Bytes := do
  .require (i + piece.length ≤ content.length) .outOfBounds
  return overwrite content i piece

/-- `encode_cursor`, in little-endian order. -/
def encodeCursor {ε : Type} (bytes : Bytes) (startOfIndices index value : ℕ) : Outcome ε Bytes := do
  .require (value < 2 ^ 32) .unwrap
  copyFromSlice bytes (startOfIndices + index * 4) (leBytes 4 value)

/-- The loop of `resize_if_needed`: double `newLen` until it exceeds `requiredLen`. -/
def doubleUntil (requiredLen : ℕ) : ℕ → ℕ → ℕ
  | 0, newLen => newLen
  | fuel + 1, newLen =>
    if newLen ≤ requiredLen then doubleUntil requiredLen fuel (newLen * 2) else newLen

/-- `resize_if_needed`. -/
def resizeIfNeeded (vec : Bytes) (requiredLen : ℕ) : Bytes :=
  if vec.length ≤ requiredLen then
    let newLen := doubleUntil requiredLen requiredLen (max vec.length 1)
    vec ++ List.replicate (newLen - vec.length) 0
  else vec

/-- One turn of the decoder's loop, with the state it changes. -/
def decodeStep (witnessIndexSpace i : ℕ) (content : Bytes) (cursor : ℕ) : Read (Bytes × ℕ) := do
  let elementSizeVarint ← VarInt.consensusDecode
  let elementSizeVarintLen := elementSizeVarint.size
  let elementSize := elementSizeVarint.val.toNat
  Decoder.ensure (cursor + elementSize < 2 ^ 64) (.oversizedVectorAllocation (2 ^ 64 - 1) MAX_VEC_SIZE)
  let requiredLen := cursor + elementSize + elementSizeVarintLen
  Decoder.ensure (requiredLen < 2 ^ 64) (.oversizedVectorAllocation (2 ^ 64 - 1) MAX_VEC_SIZE)
  Decoder.ensure (requiredLen ≤ MAX_VEC_SIZE + witnessIndexSpace)
    (.oversizedVectorAllocation requiredLen MAX_VEC_SIZE)
  let content ← Decoder.ofOutcome (encodeCursor content 0 i (cursor - witnessIndexSpace))
  let content := resizeIfNeeded content requiredLen
  let content ← Decoder.ofOutcome (copyFromSlice content cursor elementSizeVarint.written.bytes)
  let cursor := cursor + elementSizeVarintLen
  let element ← readSlice elementSize
  let content ← Decoder.ofOutcome (copyFromSlice content cursor element)
  return (content, cursor + elementSize)

/-- The decoder's loop from the `i`-th element on. -/
def decodeLoop (witnessIndexSpace : ℕ) : ℕ → ℕ → Bytes → ℕ → Read (Bytes × ℕ)
  | 0, _, content, cursor => return (content, cursor)
  | n + 1, i, content, cursor => do
    let s ← decodeStep witnessIndexSpace i content cursor
    decodeLoop witnessIndexSpace n (i + 1) s.1 s.2

/-- `truncate` and `rotate_left`. -/
def finishContent (witnessIndexSpace witnessElements : ℕ) (content : Bytes) (cursor : ℕ) :
    Outcome EncodeError WitnessRepr := do
  let content := content.take cursor
  .require (witnessIndexSpace ≤ content.length) .assertion
  return ⟨content.drop witnessIndexSpace ++ content.take witnessIndexSpace, witnessElements,
    cursor - witnessIndexSpace⟩

/-- `Witness::consensus_decode`. -/
def WitnessRepr.consensusDecode : Read WitnessRepr := do
  let witnessElements ← decodeLen
  Decoder.ensure (witnessElements ≤ MAX_VEC_SIZE)
    (.oversizedVectorAllocation witnessElements MAX_VEC_SIZE)
  if witnessElements = 0 then return Witness.new.repr
  else
    let witnessIndexSpace := witnessElements * 4
    let content := List.replicate (witnessIndexSpace + 128) 0
    let s ← decodeLoop witnessIndexSpace witnessElements 0 content witnessIndexSpace
    Decoder.ofOutcome (finishContent witnessIndexSpace witnessElements s.1 s.2)

/-- `Witness::consensus_encode`. -/
def WitnessRepr.consensusEncode : Encoder WitnessRepr := fun w => do
  let len ← encodeLen w.witnessElements
  let indicesSize := w.witnessElements * 4
  .require (indicesSize ≤ w.content.length) .overflow
  let contentLen := w.content.length - indicesSize
  return ⟨len.bytes ++ w.content.take contentLen,
    contentLen + (VarInt.mk (UInt64.ofNat w.witnessElements)).size⟩

/-! ## The buffer -/

theorem length_elementBytes (elem : Bytes) :
    (elementBytes elem).length = (VarInt.mk (UInt64.ofNat elem.length)).size + elem.length := by
  rw [elementBytes, List.length_append, VarInt.length_written]

theorem length_cursors (cursor : ℕ) (elems : List Bytes) :
    (cursors cursor elems).length = elems.length := by
  induction elems generalizing cursor with
  | nil => rfl
  | cons elem elems ih => simp [cursors, ih]

theorem cursors_concat (cursor : ℕ) (elems : List Bytes) (elem : Bytes) :
    cursors cursor (elems ++ [elem]) =
      cursors cursor elems ++ [cursor + (elems.flatMap elementBytes).length] := by
  induction elems generalizing cursor with
  | nil => simp [cursors]
  | cons e elems ih =>
    simp only [List.cons_append, cursors, ih, List.flatMap_cons, List.length_append, Nat.add_assoc]

theorem indexBytes_concat (elems : List Bytes) (elem : Bytes) :
    indexBytes (elems ++ [elem]) =
      indexBytes elems ++ leBytes 4 (elems.flatMap elementBytes).length := by
  simp [indexBytes, cursors_concat]

theorem length_indexBytes (elems : List Bytes) : (indexBytes elems).length = elems.length * 4 := by
  simp [indexBytes, List.map_const', length_cursors]

theorem lt_doubleUntil (requiredLen fuel newLen : ℕ) (hpos : 0 < newLen)
    (hf : requiredLen < newLen + fuel) : requiredLen < doubleUntil requiredLen fuel newLen := by
  induction fuel generalizing newLen with
  | zero => exact hf
  | succ fuel ih =>
    rw [doubleUntil]
    split_ifs with h
    · exact ih (newLen * 2) (by omega) (by omega)
    · omega

/-- Resizing adds room for `requiredLen` bytes and more at the end. -/
theorem resizeIfNeeded_spec (vec : Bytes) (requiredLen : ℕ) :
    ∃ room, resizeIfNeeded vec requiredLen = vec ++ room ∧ requiredLen < vec.length + room.length := by
  unfold resizeIfNeeded
  split_ifs with h
  · have hlt := lt_doubleUntil requiredLen requiredLen (max vec.length 1) (by omega) (by omega)
    refine ⟨_, rfl, ?_⟩
    rw [List.length_replicate]
    omega
  · exact ⟨[], by simp, by simpa using h⟩

theorem copyFromSlice_append {ε : Type} (pre old post piece : Bytes)
    (h : old.length = piece.length) :
    (copyFromSlice (pre ++ old ++ post) pre.length piece : Outcome ε Bytes) =
      .ok (pre ++ piece ++ post) := by
  rw [copyFromSlice, Outcome.require_of (by simp; omega), overwrite_append pre old post piece h]
  rfl

/-- At the end of a buffer the bytes that are written over do not matter. -/
theorem copyFromSlice_last {ε : Type} (pre post piece : Bytes) (h : piece.length ≤ post.length) :
    (copyFromSlice (pre ++ post) pre.length piece : Outcome ε Bytes) =
      .ok (pre ++ piece ++ post.drop piece.length) := by
  have e := copyFromSlice_append (ε := ε) pre (post.take piece.length) (post.drop piece.length) piece
    (by simp [h])
  rwa [List.append_assoc, List.take_append_drop] at e

/-- The buffer of the decoder after `done`, with `n` elements to come in all: the positions written
so far, room for the others, the elements, and whatever is behind them. -/
structure LoopInv (n : ℕ) (done : List Bytes) (content : Bytes) (cursor : ℕ) : Prop where
  length_le : done.length ≤ n
  layout : ∃ junk, content = indexBytes done ++ List.replicate ((n - done.length) * 4) 0 ++
    done.flatMap elementBytes ++ junk
  cursor_eq : cursor = n * 4 + (done.flatMap elementBytes).length

theorem loopInv_nil (n : ℕ) : LoopInv n [] (List.replicate (n * 4 + 128) 0) (n * 4) where
  length_le := Nat.zero_le n
  layout := ⟨List.replicate 128 0, by
    rw [← List.replicate_append_replicate, List.flatMap_nil, List.append_nil]
    rfl⟩
  cursor_eq := by simp

/-- The position of an element goes into the first slot that is still free. -/
theorem encodeCursor_of_inv {ε : Type} {n : ℕ} {done : List Bytes} {content : Bytes} {cursor : ℕ}
    (inv : LoopInv n done content cursor) (elem : Bytes) (hlt : done.length < n) (hcur : cursor - n * 4 < 2 ^ 32) :
    ∃ pre junk, (encodeCursor content 0 done.length (cursor - n * 4) : Outcome ε Bytes) =
        .ok (pre ++ junk) ∧
      pre = indexBytes (done ++ [elem]) ++
        List.replicate ((n - (done ++ [elem]).length) * 4) 0 ++ done.flatMap elementBytes ∧
      pre.length = cursor := by
  obtain ⟨-, ⟨junk, rfl⟩, rfl⟩ := inv
  rw [Nat.add_sub_cancel_left] at hcur ⊢
  have hslot : List.replicate ((n - done.length) * 4) (0 : UInt8) =
      List.replicate 4 0 ++ List.replicate ((n - (done ++ [elem]).length) * 4) 0 := by
    rw [List.replicate_append_replicate, List.length_append, List.length_singleton]
    congr 1
    omega
  refine ⟨_, junk, ?_, rfl, ?_⟩
  · have hcopy := copyFromSlice_append (ε := ε) (indexBytes done) (List.replicate 4 0)
      (List.replicate ((n - (done ++ [elem]).length) * 4) 0 ++ done.flatMap elementBytes ++ junk)
      (leBytes 4 (done.flatMap elementBytes).length) (by simp)
    rw [length_indexBytes] at hcopy
    rw [encodeCursor, Outcome.require_of hcur, Outcome.ok_bind, Nat.zero_add, hslot,
      indexBytes_concat]
    simpa only [List.append_assoc] using hcopy
  · simp only [List.length_append, length_indexBytes, List.length_replicate, List.length_singleton]
    omega

/-- A turn of the loop on an element for which there is room. -/
theorem decodeStep_of_inv {n : ℕ} {done : List Bytes} {content elem : Bytes} {cursor : ℕ}
    (inv : LoopInv n done content cursor) (hn : n ≤ MAX_VEC_SIZE) (hlt : done.length < n)
    (hroom : ((done ++ [elem]).flatMap elementBytes).length ≤ MAX_VEC_SIZE) (rest : Bytes) :
    ∃ s, (decodeStep (n * 4) done.length content cursor).run (elementBytes elem ++ rest) =
        .ok (s, rest) ∧ LoopInv n (done ++ [elem]) s.1 s.2 := by
  have hmax : MAX_VEC_SIZE = 4000000 := rfl
  have hlen := length_elementBytes elem
  have hcur := inv.cursor_eq
  simp only [List.flatMap_append, List.flatMap_cons, List.flatMap_nil, List.append_nil,
    List.length_append] at hroom
  have hval : (UInt64.ofNat elem.length).toNat = elem.length :=
    UInt64.toNat_ofNat_of_lt' (Nat.lt_of_le_of_lt (by omega : _ ≤ 4000000) (by decide))
  have hvi := (VarInt.mk (UInt64.ofNat elem.length)).length_written
  obtain ⟨pre, junk, henc, hpre, hplen⟩ :=
    encodeCursor_of_inv (ε := EncodeError) inv elem hlt (by omega)
  generalize hv : VarInt.mk (UInt64.ofNat elem.length) = v at *
  have hv' : v.val.toNat = elem.length := by rw [← hv, hval]
  obtain ⟨room, hres, hroomlen⟩ := resizeIfNeeded_spec (pre ++ junk) (cursor + elem.length + v.size)
  rw [List.append_assoc] at hres
  rw [List.length_append] at hroomlen
  have hcopy₁ := copyFromSlice_last (ε := EncodeError) pre (junk ++ room) v.written.bytes
    (by rw [List.length_append]; omega)
  have hcopy₂ := copyFromSlice_last (ε := EncodeError) (pre ++ v.written.bytes)
    ((junk ++ room).drop v.written.bytes.length) elem
    (by rw [List.length_drop, List.length_append]; omega)
  rw [List.length_append, hplen, hvi] at hcopy₂
  rw [hplen, hvi] at hcopy₁
  have hbytes : elementBytes elem ++ rest = v.written.bytes ++ (elem ++ rest) := by
    rw [elementBytes, hv, List.append_assoc]
  refine ⟨⟨pre ++ v.written.bytes ++ elem ++ ((junk ++ room).drop v.size).drop elem.length,
    cursor + v.size + elem.length⟩, ?_, ?_⟩
  · rw [hbytes, decodeStep, Decoder.run_bind_of_ok (VarInt.roundTrips v _ trivial rfl _)]
    simp only [hv']
    rw [Decoder.run_ensure_bind_of (by omega), Decoder.run_ensure_bind_of (by omega),
      Decoder.run_ensure_bind_of (by omega),
      Decoder.run_bind_of_ok (Decoder.run_ofOutcome_eq_ok_iff.2 ⟨henc, rfl⟩), hres,
      Decoder.run_bind_of_ok (Decoder.run_ofOutcome_eq_ok_iff.2 ⟨hcopy₁, rfl⟩),
      Decoder.run_bind_of_ok (Decoder.run_readExact_append _ rfl rest),
      Decoder.run_bind_of_ok (Decoder.run_ofOutcome_eq_ok_iff.2 ⟨hcopy₂, rfl⟩), Decoder.run_pure_eq]
  · refine ⟨by simp; omega, ⟨((junk ++ room).drop v.size).drop elem.length, ?_⟩, ?_⟩
    · simp only [hpre, List.flatMap_append, List.flatMap_cons, List.flatMap_nil, List.append_nil,
        elementBytes, hv, List.append_assoc]
    · simp only [List.flatMap_append, List.flatMap_cons, List.flatMap_nil, List.append_nil,
        List.length_append]
      omega

/-- What a turn of the loop has read is an element for which there was room. -/
theorem of_decodeStep_eq_ok {n i : ℕ} {content bs rest : Bytes} {cursor : ℕ} {s : Bytes × ℕ}
    (h : (decodeStep (n * 4) i content cursor).run bs = .ok (s, rest)) :
    ∃ elem, bs = elementBytes elem ++ rest ∧ elem.length < 2 ^ 64 ∧
      cursor + (elementBytes elem).length ≤ MAX_VEC_SIZE + n * 4 := by
  rw [decodeStep] at h
  obtain ⟨v, r₁, hv, h₁⟩ := Decoder.run_bind_eq_ok_iff.1 h
  obtain ⟨-, h₂⟩ := Decoder.run_ensure_bind_eq_ok_iff.1 h₁
  obtain ⟨-, h₃⟩ := Decoder.run_ensure_bind_eq_ok_iff.1 h₂
  obtain ⟨hroom, h₄⟩ := Decoder.run_ensure_bind_eq_ok_iff.1 h₃
  obtain ⟨c₁, r₅, hc₁, h₅⟩ := Decoder.run_bind_eq_ok_iff.1 h₄
  obtain ⟨c₂, r₆, hc₂, h₆⟩ := Decoder.run_bind_eq_ok_iff.1 h₅
  obtain ⟨elem, r₇, hr, h₇⟩ := Decoder.run_bind_eq_ok_iff.1 h₆
  obtain ⟨c₃, r₈, hc₃, h₈⟩ := Decoder.run_bind_eq_ok_iff.1 h₇
  obtain rfl := VarInt.canonical.eq_append rfl hv
  obtain ⟨-, rfl⟩ := Decoder.run_ofOutcome_eq_ok_iff.1 hc₁
  obtain ⟨-, rfl⟩ := Decoder.run_ofOutcome_eq_ok_iff.1 hc₂
  obtain ⟨rfl, hlen⟩ := Decoder.run_readExact_eq_ok_iff.1 hr
  obtain ⟨-, rfl⟩ := Decoder.run_ofOutcome_eq_ok_iff.1 hc₃
  simp only [Decoder.run_pure_eq, Outcome.ok.injEq, Prod.mk.injEq] at h₈
  obtain ⟨-, rfl⟩ := h₈
  have hv : VarInt.mk (UInt64.ofNat elem.length) = v := by rw [hlen, UInt64.ofNat_toNat]
  refine ⟨elem, ?_, hlen ▸ v.val.toNat_lt, ?_⟩
  · rw [elementBytes, hv, List.append_assoc]
  · rw [length_elementBytes, hv]
    omega

/-- The loop on elements for which there is room. -/
theorem decodeLoop_of_inv {n : ℕ} (hn : n ≤ MAX_VEC_SIZE) (todo done : List Bytes)
    {content : Bytes} {cursor : ℕ} (inv : LoopInv n done content cursor)
    (hlen : done.length + todo.length = n)
    (hroom : ((done ++ todo).flatMap elementBytes).length ≤ MAX_VEC_SIZE) (rest : Bytes) :
    ∃ s, (decodeLoop (n * 4) todo.length done.length content cursor).run
        (todo.flatMap elementBytes ++ rest) = .ok (s, rest) ∧ LoopInv n (done ++ todo) s.1 s.2 := by
  induction todo generalizing done content cursor with
  | nil => exact ⟨(content, cursor), rfl, by simpa using inv⟩
  | cons elem todo ih =>
    have happ : done ++ elem :: todo = done ++ [elem] ++ todo := by simp
    rw [happ] at hroom ⊢
    have hfirst : ((done ++ [elem]).flatMap elementBytes).length ≤ MAX_VEC_SIZE := by
      rw [List.flatMap_append, List.length_append] at hroom
      omega
    rw [List.length_cons] at hlen
    obtain ⟨s, hs, inv'⟩ := decodeStep_of_inv inv hn (by omega) hfirst
      (todo.flatMap elementBytes ++ rest)
    obtain ⟨t, ht, inv''⟩ := ih (done ++ [elem]) inv' (by simp; omega) hroom
    refine ⟨t, ?_, inv''⟩
    rw [List.flatMap_cons, List.append_assoc, List.length_cons, decodeLoop,
      Decoder.run_bind_of_ok hs]
    rwa [List.length_append, List.length_singleton] at ht

/-- What the loop has read is a list of elements for which there was room. -/
theorem of_decodeLoop_eq_ok {n : ℕ} (hn : n ≤ MAX_VEC_SIZE) (k : ℕ) (done : List Bytes)
    {content bs rest : Bytes} {cursor : ℕ} {s : Bytes × ℕ} (inv : LoopInv n done content cursor)
    (hlen : done.length + k = n) (hroom : (done.flatMap elementBytes).length ≤ MAX_VEC_SIZE)
    (h : (decodeLoop (n * 4) k done.length content cursor).run bs = .ok (s, rest)) :
    ∃ todo, todo.length = k ∧ bs = todo.flatMap elementBytes ++ rest ∧
      (∀ elem ∈ todo, elem.length < 2 ^ 64) ∧
      ((done ++ todo).flatMap elementBytes).length ≤ MAX_VEC_SIZE := by
  induction k generalizing done content bs cursor with
  | zero =>
    rw [decodeLoop] at h
    cases h
    exact ⟨[], rfl, rfl, by simp, by simpa using hroom⟩
  | succ k ih =>
    rw [decodeLoop] at h
    obtain ⟨t, mid, ht, h'⟩ := Decoder.run_bind_eq_ok_iff.1 h
    obtain ⟨elem, rfl, hel, hcur⟩ := of_decodeStep_eq_ok ht
    have hc := inv.cursor_eq
    have hfirst : ((done ++ [elem]).flatMap elementBytes).length ≤ MAX_VEC_SIZE := by
      simp only [List.flatMap_append, List.flatMap_cons, List.flatMap_nil, List.append_nil,
        List.length_append]
      omega
    -- the same turn, seen forwards, gives the invariant of the state it ends in
    obtain ⟨t', ht', inv'⟩ := decodeStep_of_inv inv hn (by omega) hfirst mid
    obtain rfl : t = t' := by
      rw [ht] at ht'
      simpa using ht'
    obtain ⟨todo, rfl, rfl, hall, hfit⟩ :=
      ih (done ++ [elem]) inv' (by simp; omega) hfirst (by simpa using h')
    refine ⟨elem :: todo, rfl, by simp, ?_, by simpa using hfit⟩
    intro e he
    rcases List.mem_cons.1 he with rfl | he
    · exact hel
    · exact hall e he

theorem finishContent_of_inv {elems : List Bytes} {content : Bytes} {cursor : ℕ}
    (inv : LoopInv elems.length elems content cursor) :
    finishContent (elems.length * 4) elems.length content cursor = .ok (pack elems) := by
  obtain ⟨-, ⟨junk, rfl⟩, rfl⟩ := inv
  have htake : (indexBytes elems ++ List.replicate ((elems.length - elems.length) * 4) 0 ++
      elems.flatMap elementBytes ++ junk).take (elems.length * 4 + (elems.flatMap elementBytes).length) =
      indexBytes elems ++ elems.flatMap elementBytes := by
    rw [Nat.sub_self, Nat.zero_mul, List.replicate_zero, List.append_nil]
    exact List.take_left' (by rw [List.length_append, length_indexBytes])
  rw [finishContent, htake, Outcome.require_of (by rw [List.length_append, length_indexBytes]; omega),
    Outcome.ok_bind, List.drop_left' (length_indexBytes elems), List.take_left' (length_indexBytes elems),
    Nat.add_sub_cancel_left]
  rfl

/-! ## Laws -/

theorem cursor_le {cursor c : ℕ} {elems : List Bytes} (h : c ∈ cursors cursor elems) :
    c ≤ cursor + (elems.flatMap elementBytes).length := by
  induction elems generalizing cursor with
  | nil => cases h
  | cons elem elems ih =>
    rw [List.flatMap_cons, List.length_append]
    rcases List.mem_cons.1 h with rfl | h
    · omega
    · have := ih h
      omega

/-- Every element takes a byte for its length. -/
theorem length_le_flatMap (elems : List Bytes) : elems.length ≤ (elems.flatMap elementBytes).length := by
  induction elems with
  | nil => simp
  | cons elem elems ih =>
    have := (VarInt.mk (UInt64.ofNat elem.length)).size_pos
    rw [List.flatMap_cons, List.length_append, List.length_cons, length_elementBytes]
    omega

/-- A packable list is short, since its positions are distinct. -/
theorem Packable.length_le {elems : List Bytes} (h : Packable elems) : elems.length ≤ 2 ^ 32 := by
  rcases List.eq_nil_or_concat elems with rfl | ⟨init, last, rfl⟩
  · simp
  · rw [List.concat_eq_append] at h ⊢
    have hlast := h.cursor_lt _ (by rw [cursors_concat]; exact List.mem_append_right _ List.mem_cons_self)
    have := length_le_flatMap init
    rw [List.length_append, List.length_singleton]
    omega

theorem packable_of_le {elems : List Bytes} (hl : ∀ elem ∈ elems, elem.length < 2 ^ 64)
    (h : (elems.flatMap elementBytes).length ≤ MAX_VEC_SIZE) : Packable elems := by
  refine ⟨hl, fun c hc => ?_⟩
  have := cursor_le hc
  have hmax : MAX_VEC_SIZE = 4000000 := rfl
  omega

namespace WitnessRepr

theorem consensusEncode_pack {elems : List Bytes} {w : Written} :
    consensusEncode (pack elems) = .ok w ↔ ∃ u, encodeLen elems.length = .ok u ∧
      w = ⟨u.bytes ++ elems.flatMap elementBytes,
        (elems.flatMap elementBytes).length + (VarInt.mk (UInt64.ofNat elems.length)).size⟩ := by
  have hle : (pack elems).witnessElements * 4 ≤ (pack elems).content.length := by
    simp [pack, length_indexBytes]
  have hlen : (pack elems).content.length - (pack elems).witnessElements * 4 =
      (elems.flatMap elementBytes).length := by
    simp [pack, length_indexBytes]
  rw [consensusEncode, Outcome.bind_eq_ok_iff]
  simp only [Outcome.require_of hle, Outcome.ok_bind, hlen, Outcome.pure_eq_ok, Outcome.ok.injEq]
  simp [pack, eq_comm]

theorem consensusDecode_pack {elems : List Bytes} {u : Written} (hu : encodeLen elems.length = .ok u)
    (h : (elems.flatMap elementBytes).length ≤ MAX_VEC_SIZE) (rest : Bytes) :
    consensusDecode.run (u.bytes ++ elems.flatMap elementBytes ++ rest) = .ok (pack elems, rest) := by
  have hn := (length_le_flatMap elems).trans h
  rw [consensusDecode, List.append_assoc,
    Decoder.run_bind_of_ok (lawful_len.roundTrips _ u trivial hu _), Decoder.run_ensure_bind_of hn]
  split_ifs with h0
  · obtain rfl := List.length_eq_zero_iff.1 h0
    rfl
  · obtain ⟨s, hs, inv⟩ := decodeLoop_of_inv hn elems [] (loopInv_nil _) (by simp) h rest
    rw [List.length_nil] at hs
    rw [Decoder.run_bind_of_ok hs, Decoder.run_ofOutcome, finishContent_of_inv inv, Outcome.ok_bind]

/-- The decoder returns packed forms only. -/
theorem of_consensusDecode_eq_ok {bs rest : Bytes} {r : WitnessRepr}
    (h : consensusDecode.run bs = .ok (r, rest)) :
    ∃ elems u, r = pack elems ∧ (∀ elem ∈ elems, elem.length < 2 ^ 64) ∧
      (elems.flatMap elementBytes).length ≤ MAX_VEC_SIZE ∧ encodeLen elems.length = .ok u ∧
      bs = u.bytes ++ elems.flatMap elementBytes ++ rest := by
  rw [consensusDecode] at h
  obtain ⟨n, r₁, hlen, h₁⟩ := Decoder.run_bind_eq_ok_iff.1 h
  obtain ⟨-, u, hu, rfl⟩ := lawful_len.canonical _ _ _ hlen
  obtain ⟨hn, h₂⟩ := Decoder.run_ensure_bind_eq_ok_iff.1 h₁
  split_ifs at h₂ with h0
  · cases h₂
    subst h0
    exact ⟨[], u, rfl, by simp, by simp, hu, by simp⟩
  · obtain ⟨s, r₃, hs, h₃⟩ := Decoder.run_bind_eq_ok_iff.1 h₂
    obtain ⟨elems, rfl, rfl, hall, hfit⟩ :=
      of_decodeLoop_eq_ok hn n [] (loopInv_nil n) (by simp) (by simp) hs
    rw [List.nil_append] at hfit
    obtain ⟨hfin, rfl⟩ := Decoder.run_ofOutcome_eq_ok_iff.1 h₃
    obtain ⟨s', hs', inv⟩ := decodeLoop_of_inv hn elems [] (loopInv_nil _) (by simp) hfit rest
    obtain rfl : s = s' := by
      rw [List.length_nil, hs] at hs'
      simpa using hs'
    rw [finishContent_of_inv inv] at hfin
    exact ⟨elems, u, (Outcome.ok.inj hfin).symm, hall, hfit, hu, by simp⟩

theorem packed_of_consensusDecode (bs : Bytes) (r : WitnessRepr) (rest : Bytes)
    (h : consensusDecode.run bs = .ok (r, rest)) : ∃ elems, Packable elems ∧ r = pack elems := by
  obtain ⟨elems, _, hr, hl, hfit, -⟩ := of_consensusDecode_eq_ok h
  exact ⟨elems, packable_of_le hl hfit, hr⟩

end WitnessRepr

namespace Witness

/-- `Witness::consensus_decode`, with the packed form of what it returns. -/
def consensusDecode : Read Witness :=
  (fun r => ⟨r.1, r.2⟩) <$> WitnessRepr.consensusDecode.attach WitnessRepr.packed_of_consensusDecode

def codec : Codec Witness := .ofDecode (fun w => w.repr.consensusEncode) consensusDecode

theorem run_consensusDecode_eq_ok_iff {bs rest : Bytes} {w : Witness} :
    consensusDecode.run bs = .ok (w, rest) ↔ WitnessRepr.consensusDecode.run bs = .ok (w.repr, rest) := by
  rw [consensusDecode, Decoder.run_map_eq_ok_iff]
  simp only [Decoder.run_attach_eq_ok_iff]
  constructor
  · rintro ⟨r, hr, rfl⟩
    exact hr
  · intro h
    exact ⟨⟨w.repr, w.packed⟩, h, rfl⟩

theorem isEmpty_iff {w : Witness} : w.isEmpty = true ↔ w = new := by
  constructor
  · obtain ⟨r, elems, -, rfl⟩ := w
    intro h
    obtain rfl : elems = [] := by simpa [isEmpty, pack] using h
    rfl
  · rintro rfl
    rfl

/-- The decoder returns the witnesses whose elements take at most `MAX_VEC_SIZE` bytes. -/
theorem lawful : codec.IsLawful fun w => w.repr.indicesStart ≤ MAX_VEC_SIZE := by
  refine .ofDecode ⟨?_, ?_, ?_⟩
  · rintro ⟨r, elems, hp, rfl⟩ w e
    obtain ⟨u, hu, rfl⟩ := WitnessRepr.consensusEncode_pack.1 e
    obtain ⟨-, hu⟩ := encodeLen_eq_ok_iff.1 hu
    obtain rfl := Outcome.ok.inj hu
    simp only [List.length_append, VarInt.length_written]
    omega
  · rintro ⟨r, elems, hp, rfl⟩ w h e rest
    obtain ⟨u, hu, rfl⟩ := WitnessRepr.consensusEncode_pack.1 e
    exact run_consensusDecode_eq_ok_iff.2 (WitnessRepr.consensusDecode_pack hu h rest)
  · intro bs w rest hr
    obtain ⟨elems, u, hw, hl, hfit, hu, rfl⟩ :=
      WitnessRepr.of_consensusDecode_eq_ok (run_consensusDecode_eq_ok_iff.1 hr)
    show w.repr.indicesStart ≤ MAX_VEC_SIZE ∧ ∃ v, w.repr.consensusEncode = .ok v ∧ _
    rw [hw]
    exact ⟨hfit, _, WitnessRepr.consensusEncode_pack.2 ⟨u, hu, rfl⟩, rfl⟩

theorem exists_encode (w : Witness) : ∃ v, codec.consensusEncode w = .ok v := by
  obtain ⟨r, elems, hp, rfl⟩ := w
  have hlt : elems.length < 2 ^ 64 := hp.length_le.trans_lt (by decide)
  exact ⟨_, WitnessRepr.consensusEncode_pack.2 ⟨_, encodeLen_eq_ok_iff.2 ⟨hlt, rfl⟩, rfl⟩⟩

/-- A witness that serializes to at most `MAX_VEC_SIZE` bytes can be decoded. -/
theorem indicesStart_le_of_fits {w : Witness} (h : Fits codec.consensusEncode MAX_VEC_SIZE w) :
    w.repr.indicesStart ≤ MAX_VEC_SIZE := by
  obtain ⟨v, hv⟩ := w.exists_encode
  have hlen := h v hv
  obtain ⟨r, elems, hp, rfl⟩ := w
  obtain ⟨u, hu, rfl⟩ := WitnessRepr.consensusEncode_pack.1 hv
  rw [List.length_append] at hlen
  show (elems.flatMap elementBytes).length ≤ MAX_VEC_SIZE
  omega

end Witness

end RustDogecoin
