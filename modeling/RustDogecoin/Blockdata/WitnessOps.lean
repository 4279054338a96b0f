import RustDogecoin.Blockdata.Witness

/-!
# Building and reading a witness

The operations of `blockdata/witness.rs` on the packed form.  `from_slice` lays the index area out
behind the elements, `push_slice` makes room by turning it, and the decoder has it in front until
the end; all three end in `pack` of the list that was meant (`Op.Means`).  Reading goes through the
positions in the index area.  A vector holds at most `isize::MAX` bytes, which is what keeps the
arithmetic of `decode_cursor` in range.
-/

namespace RustDogecoin

namespace WitnessRepr

/-! ## Building -/

/-- `vec![0u8; n]` and `Vec::resize` stop at `isize::MAX` bytes. -/
def reserve {ε : Type} (n : ℕ) : Outcome ε Unit := .require (n < 2 ^ 63) .overflow

/-- The loop of `from_slice` from the `i`-th element on. -/
def fromSliceLoop (contentSize : ℕ) : List Bytes → ℕ → Bytes → ℕ → Outcome Empty Bytes
  | [], _, content, _ => return content
  | elem :: elems, i, content, cursor => do
    let content ← encodeCursor content contentSize i cursor
    let elemLenVarint := VarInt.mk (UInt64.ofNat elem.length)
    let content ← copyFromSlice content cursor elemLenVarint.written.bytes
    let cursor := cursor + elemLenVarint.size
    let content ← copyFromSlice content cursor elem
    fromSliceLoop contentSize elems (i + 1) content (cursor + elem.length)

/-- Creates a witness from a slice of bytes slices where each slice is a witness item. -/
def fromSlice (slice : List Bytes) : Outcome Empty WitnessRepr := do
  let witnessElements := slice.length
  let indexSize := witnessElements * 4
  let contentSize := (slice.map fun elem =>
    elem.length + (VarInt.mk (UInt64.ofNat elem.length)).size).sum
  reserve (contentSize + indexSize)
  let content ← fromSliceLoop contentSize slice 0 (List.replicate (contentSize + indexSize) 0) 0
  return ⟨content, witnessElements, contentSize⟩

/-- `content[start..].rotate_right(k)`. -/
def rotateRightFrom {ε : Type} (content : Bytes) (start k : ℕ) : Outcome ε Bytes := do
  .require (start ≤ content.length) .outOfBounds
  let tail := content.drop start
  .require (k ≤ tail.length) .assertion
  return content.take start ++ (tail.drop (tail.length - k) ++ tail.take (tail.length - k))

/-- Push a new element slice onto the witness stack. -/
def pushSlice (w : WitnessRepr) (newElement : Bytes) : Outcome Empty WitnessRepr := do
  let witnessElements := w.witnessElements + 1
  let previousContentEnd := w.indicesStart
  let elementLenVarint := VarInt.mk (UInt64.ofNat newElement.length)
  let newItemTotalLen := elementLenVarint.size + newElement.length
  reserve (w.content.length + newItemTotalLen + 4)
  let content := w.content ++ List.replicate (newItemTotalLen + 4) 0
  let content ← rotateRightFrom content previousContentEnd newItemTotalLen
  let indicesStart := w.indicesStart + newItemTotalLen
  let content ← encodeCursor content indicesStart (witnessElements - 1) previousContentEnd
  let endVarint := previousContentEnd + elementLenVarint.size
  let content ← copyFromSlice content previousContentEnd elementLenVarint.written.bytes
  let content ← copyFromSlice content endVarint newElement
  return ⟨content, witnessElements, indicesStart⟩

/-- Push a new element on the witness. -/
def push (w : WitnessRepr) (newElement : Bytes) : Outcome Empty WitnessRepr := w.pushSlice newElement

/-- Clear the witness. -/
def clear (_ : WitnessRepr) : WitnessRepr := ⟨[], 0, 0⟩

/-! ## Reading -/

/-- `&bytes[start..end]`. -/
def subslice {ε : Type} (bytes : Bytes) (start stop : ℕ) : Outcome ε Bytes := do
  .require (start ≤ stop ∧ stop ≤ bytes.length) .outOfBounds
  return (bytes.drop start).take (stop - start)

/-- `decode_cursor`, in little-endian order. -/
def decodeCursor (bytes : Bytes) (startOfIndices index : ℕ) : Outcome Empty (Option ℕ) := do
  let start := startOfIndices + index * 4
  let stop := start + 4
  .require (stop < 2 ^ 64) .overflow
  if bytes.length < stop then return none else return some (leNat (← subslice bytes start stop))

/-- `Witness::element_at`, which `Iter::next` repeats. -/
def elementAt (content : Bytes) (index : ℕ) : Outcome Empty (Option Bytes) := do
  .require (index ≤ content.length) .outOfBounds
  match VarInt.consensusDecode.run (content.drop index) with
  | .err _ => return none
  | .panic p => .panic p
  | .ok (varint, _) =>
    let start := index + varint.size
    let stop := start + varint.val.toNat
    .require (stop < 2 ^ 64) .overflow
    return some (← subslice content start stop)

/-- Returns the number of elements this witness holds. -/
def len (w : WitnessRepr) : ℕ := w.witnessElements

/-- Returns `true` if the witness contains no element. -/
def isEmpty (w : WitnessRepr) : Bool := w.witnessElements == 0

/-- Return the nth element in the witness, if any. -/
def nth (w : WitnessRepr) (index : ℕ) : Outcome Empty (Option Bytes) := do
  match ← decodeCursor w.content w.indicesStart index with
  | none => return none
  | some pos => elementAt w.content pos

/-- The common shape of `last`, `second_to_last` and `third_to_last`: the `k`-th from the end. -/
def fromEnd (w : WitnessRepr) (k : ℕ) : Outcome Empty (Option Bytes) :=
  if w.witnessElements ≤ k then return none else w.nth (w.witnessElements - (k + 1))

/-- Returns the last element in the witness, if any. -/
def last (w : WitnessRepr) : Outcome Empty (Option Bytes) :=
  if w.witnessElements = 0 then return none else w.nth (w.witnessElements - 1)

/-- Returns the second-to-last element in the witness, if any. -/
def secondToLast (w : WitnessRepr) : Outcome Empty (Option Bytes) := w.fromEnd 1

/-- Returns the third-to-last element in the witness, if any. -/
def thirdToLast (w : WitnessRepr) : Outcome Empty (Option Bytes) := w.fromEnd 2

/-- An iterator returning individual witness elements. -/
structure Iter where
  inner : Bytes
  indicesStart : ℕ
  currentIndex : ℕ
  deriving DecidableEq, Repr

/-- Returns a struct implementing `Iterator`. -/
def iter (w : WitnessRepr) : Iter := ⟨w.content, w.indicesStart, 0⟩

namespace Iter

def next (it : Iter) : Outcome Empty (Option Bytes × Iter) := do
  match ← decodeCursor it.inner it.indicesStart it.currentIndex with
  | none => return (none, it)
  | some index =>
    match ← elementAt it.inner index with
    | none => return (none, it)
    | some slice => return (some slice, { it with currentIndex := it.currentIndex + 1 })

def sizeHint (it : Iter) : Outcome Empty (ℕ × Option ℕ) := do
  .require (it.indicesStart ≤ it.inner.length) .overflow
  let totalCount := (it.inner.length - it.indicesStart) / 4
  .require (it.currentIndex ≤ totalCount) .overflow
  let remaining := totalCount - it.currentIndex
  return (remaining, some remaining)

/-- What `next` returns until it returns `None`. -/
def collect : ℕ → Iter → Outcome Empty (List Bytes)
  | 0, _ => return []
  | fuel + 1, it => do
    match ← it.next with
    | (none, _) => return []
    | (some slice, it) => return slice :: (← collect fuel it)

end Iter

/-- Convenience method to create an array of byte-arrays from this witness.  Every element has four
bytes in the index area, so the iterator is at its end before the fuel is. -/
def toVec (w : WitnessRepr) : Outcome Empty (List Bytes) := w.iter.collect (w.content.length + 1)

/-- Returns the number of bytes this witness contributes to a transactions total size. -/
def size (w : WitnessRepr) : Outcome Empty ℕ := do
  let elems ← w.iter.collect (w.content.length + 1)
  return (VarInt.mk (UInt64.ofNat w.witnessElements)).size + (elems.map fun witnessElement =>
    (VarInt.mk (UInt64.ofNat witnessElement.length)).size + witnessElement.length).sum

/-! ## What building leaves behind -/

theorem copyFromSlice_at {ε : Type} {pre old post piece : Bytes} {i : ℕ} (hi : i = pre.length)
    (h : old.length = piece.length) :
    (copyFromSlice (pre ++ (old ++ post)) i piece : Outcome ε Bytes) = .ok (pre ++ (piece ++ post)) := by
  subst hi
  rw [← List.append_assoc, copyFromSlice_append pre old post piece h, List.append_assoc]

theorem encodeCursor_eq_ok_iff {ε : Type} {pre old post c : Bytes} {start index value : ℕ}
    (hi : start + index * 4 = pre.length) (h : old.length = 4) :
    (encodeCursor (pre ++ (old ++ post)) start index value : Outcome ε Bytes) = .ok c ↔
      value < 2 ^ 32 ∧ c = pre ++ (leBytes 4 value ++ post) := by
  rw [encodeCursor, copyFromSlice_at hi (by simp [h]), Outcome.require_bind_eq_ok_iff, Outcome.ok.injEq]
  exact and_congr_right fun _ => eq_comm

theorem sum_sizes (elems : List Bytes) :
    (elems.map fun elem => elem.length + (VarInt.mk (UInt64.ofNat elem.length)).size).sum =
      (elems.flatMap elementBytes).length := by
  induction elems with
  | nil => rfl
  | cons elem elems ih =>
    rw [List.map_cons, List.sum_cons, ih, List.flatMap_cons, List.length_append, length_elementBytes]
    omega

/-- The vector of `from_slice` after `done`: the elements, room for those to come, the positions
and room for the others. -/
def fromSliceContent (done todo : List Bytes) : Bytes :=
  done.flatMap elementBytes ++ (List.replicate (todo.flatMap elementBytes).length 0 ++
    (indexBytes done ++ List.replicate (todo.length * 4) 0))

theorem fromSliceContent_nil (done : List Bytes) : fromSliceContent done [] = (pack done).content := by
  simp [fromSliceContent, pack]

theorem replicate_elementBytes (elem : Bytes) (n : ℕ) :
    List.replicate ((elementBytes elem).length + n) (0 : UInt8) =
      List.replicate (VarInt.mk (UInt64.ofNat elem.length)).size 0 ++
        (List.replicate elem.length 0 ++ List.replicate n 0) := by
  rw [List.replicate_append_replicate, List.replicate_append_replicate, length_elementBytes,
    Nat.add_assoc]

/-- A turn of the loop of `from_slice`. -/
theorem fromSliceLoop_cons {elem content : Bytes} {done todo : List Bytes}
    (h : fromSliceLoop ((done ++ elem :: todo).flatMap elementBytes).length (elem :: todo) done.length
      (fromSliceContent done (elem :: todo)) (done.flatMap elementBytes).length = .ok content) :
    (done.flatMap elementBytes).length < 2 ^ 32 ∧
      fromSliceLoop ((done ++ [elem] ++ todo).flatMap elementBytes).length todo (done ++ [elem]).length
        (fromSliceContent (done ++ [elem]) todo) ((done ++ [elem]).flatMap elementBytes).length =
        .ok content := by
  have hslot : fromSliceContent done (elem :: todo) =
      (done.flatMap elementBytes ++ (List.replicate ((elem :: todo).flatMap elementBytes).length 0 ++
        indexBytes done)) ++ (List.replicate 4 0 ++ List.replicate (todo.length * 4) 0) := by
    rw [fromSliceContent, List.length_cons, Nat.add_mul, Nat.one_mul, Nat.add_comm (todo.length * 4) 4,
      ← List.replicate_append_replicate]
    simp only [List.append_assoc]
  have hroom := replicate_elementBytes elem (todo.flatMap elementBytes).length
  have hvarint := (VarInt.mk (UInt64.ofNat elem.length)).length_written
  rw [fromSliceLoop, hslot] at h
  obtain ⟨c₁, h₁, h⟩ := Outcome.bind_eq_ok_iff.1 h
  rw [encodeCursor_eq_ok_iff (by simp [length_indexBytes]; omega) (by simp)] at h₁
  obtain ⟨hlt, rfl⟩ := h₁
  refine ⟨hlt, ?_⟩
  rw [List.flatMap_cons, List.length_append, hroom] at h
  simp only [List.append_assoc] at h
  rw [copyFromSlice_at rfl (by simp [hvarint]), Outcome.ok_bind, ← List.append_assoc (done.flatMap _),
    copyFromSlice_at (by simp [hvarint]) (by simp), Outcome.ok_bind] at h
  have hbody : (done ++ [elem]).flatMap elementBytes = done.flatMap elementBytes ++
      ((VarInt.mk (UInt64.ofNat elem.length)).written.bytes ++ elem) := by
    simp [elementBytes]
  rw [fromSliceContent, indexBytes_concat, hbody, List.length_append, List.length_singleton]
  have hcursor : (done.flatMap elementBytes ++
      ((VarInt.mk (UInt64.ofNat elem.length)).written.bytes ++ elem)).length =
      (done.flatMap elementBytes).length + (VarInt.mk (UInt64.ofNat elem.length)).size + elem.length := by
    simp [hvarint, Nat.add_assoc]
  rw [hcursor]
  simpa only [List.append_assoc, List.singleton_append] using h

/-- The loop of `from_slice` ends in the packed form, and every position has fit into 32 bits. -/
theorem of_fromSliceLoop {content : Bytes} (todo done : List Bytes)
    (hdone : ∀ cursor ∈ cursors 0 done, cursor < 2 ^ 32)
    (h : fromSliceLoop ((done ++ todo).flatMap elementBytes).length todo done.length
      (fromSliceContent done todo) (done.flatMap elementBytes).length = .ok content) :
    content = (pack (done ++ todo)).content ∧ ∀ cursor ∈ cursors 0 (done ++ todo), cursor < 2 ^ 32 := by
  induction todo generalizing done with
  | nil =>
    rw [fromSliceContent_nil] at h
    cases h
    rw [List.append_nil]
    exact ⟨rfl, hdone⟩
  | cons elem todo ih =>
    obtain ⟨hlt, h⟩ := fromSliceLoop_cons h
    have hcursors : ∀ cursor ∈ cursors 0 (done ++ [elem]), cursor < 2 ^ 32 := by
      intro cursor hc
      rw [cursors_concat, List.mem_append, List.mem_singleton, Nat.zero_add] at hc
      rcases hc with hc | rfl
      · exact hdone cursor hc
      · exact hlt
    simpa using ih (done ++ [elem]) hcursors h

theorem length_content_pack (elems : List Bytes) :
    (pack elems).content.length = (elems.flatMap elementBytes).length + elems.length * 4 := by
  simp [pack, length_indexBytes]

/-- The list that a witness holds: it can be packed, in a vector of at most `isize::MAX` bytes. -/
structure Holds (w : WitnessRepr) (elems : List Bytes) : Prop where
  eq_pack : w = pack elems
  packable : Packable elems
  length_lt : w.content.length < 2 ^ 63

theorem length_lt_of_mem {elems : List Bytes} {elem : Bytes} (h : elem ∈ elems) :
    elem.length < (elems.flatMap elementBytes).length := by
  have hpos := (VarInt.mk (UInt64.ofNat elem.length)).size_pos
  obtain ⟨pre, post, rfl⟩ := List.append_of_mem h
  rw [List.flatMap_append, List.flatMap_cons, List.length_append, List.length_append,
    length_elementBytes]
  omega

/-- `from_slice` holds the slice. -/
theorem holds_of_fromSlice {slice : List Bytes} {w : WitnessRepr} (h : fromSlice slice = .ok w) :
    w.Holds slice := by
  rw [fromSlice, sum_sizes, reserve, Outcome.require_bind_eq_ok_iff] at h
  obtain ⟨hlen, h⟩ := h
  obtain ⟨content, hloop, h⟩ := Outcome.bind_eq_ok_iff.1 h
  cases h
  have hstart : List.replicate ((slice.flatMap elementBytes).length + slice.length * 4) 0 =
      fromSliceContent [] slice := by
    rw [fromSliceContent, ← List.replicate_append_replicate]
    rfl
  rw [hstart] at hloop
  obtain ⟨rfl, hcursors⟩ := of_fromSliceLoop slice [] (by simp [cursors]) hloop
  refine ⟨rfl, ⟨?_, hcursors⟩, ?_⟩
  · intro elem helem
    have := length_lt_of_mem helem
    omega
  · rw [← length_content_pack] at hlen
    exact hlen

theorem rotateRightFrom_append {ε : Type} (pre mid post : Bytes) :
    (rotateRightFrom (pre ++ (mid ++ post)) pre.length post.length : Outcome ε Bytes) =
      .ok (pre ++ (post ++ mid)) := by
  have hmid : (mid ++ post).length - post.length = mid.length := by simp
  rw [rotateRightFrom, Outcome.require_of (by simp), Outcome.ok_bind, List.drop_left]
  simp only [hmid, List.take_left, List.drop_left]
  rw [Outcome.require_of (by simp)]
  rfl

/-- `push_slice` adds one element at the end. -/
theorem Holds.push {w w' : WitnessRepr} {elems : List Bytes} {elem : Bytes} (hw : w.Holds elems)
    (h : w.push elem = .ok w') : w'.Holds (elems ++ [elem]) := by
  obtain ⟨rfl, hpack, -⟩ := hw
  have hvarint := (VarInt.mk (UInt64.ofNat elem.length)).length_written
  have hitem := length_elementBytes elem
  rw [WitnessRepr.push, pushSlice, reserve, Outcome.require_bind_eq_ok_iff] at h
  obtain ⟨hlen, h⟩ := h
  -- the zeros behind the index area: four for the new position, the others turn to its front
  have hroom : (pack elems).content ++ List.replicate ((elementBytes elem).length + 4) 0 =
      elems.flatMap elementBytes ++ ((indexBytes elems ++ List.replicate 4 0) ++
        List.replicate (elementBytes elem).length 0) := by
    rw [Nat.add_comm, ← List.replicate_append_replicate]
    simp [pack]
  have hrotate := rotateRightFrom_append (ε := Empty) (elems.flatMap elementBytes)
    (indexBytes elems ++ List.replicate 4 0) (List.replicate (elementBytes elem).length 0)
  rw [List.length_replicate] at hrotate
  rw [← hitem, hroom] at h
  simp only [pack] at h
  rw [hrotate, Outcome.ok_bind, ← List.append_nil (List.replicate 4 0),
    ← List.append_assoc _ (indexBytes elems), ← List.append_assoc (elems.flatMap elementBytes)] at h
  obtain ⟨c₁, h₁, h⟩ := Outcome.bind_eq_ok_iff.1 h
  rw [encodeCursor_eq_ok_iff (by simp [length_indexBytes]; omega) (by simp)] at h₁
  obtain ⟨hlt, rfl⟩ := h₁
  rw [← Nat.add_zero (elementBytes elem).length, replicate_elementBytes, List.replicate_zero,
    List.append_nil] at h
  simp only [List.append_assoc, Nat.add_zero] at h
  rw [copyFromSlice_at rfl (by simp [hvarint]), Outcome.ok_bind, ← List.append_assoc (elems.flatMap _),
    copyFromSlice_at (by simp [hvarint]) (by simp), Outcome.ok_bind, Outcome.pure_eq_ok,
    Outcome.ok.injEq] at h
  have hpacked : w' = pack (elems ++ [elem]) := by
    rw [← h, pack, indexBytes_concat]
    simp [elementBytes, hvarint]
  refine ⟨hpacked, ⟨?_, ?_⟩, ?_⟩
  · intro e he
    rw [List.mem_append, List.mem_singleton] at he
    rcases he with he | rfl
    · exact hpack.length_lt e he
    · omega
  · intro cursor hc
    rw [cursors_concat, List.mem_append, List.mem_singleton, Nat.zero_add] at hc
    rcases hc with hc | rfl
    · exact hpack.cursor_lt cursor hc
    · exact hlt
  · rw [length_content_pack] at hlen
    rw [hpacked, length_content_pack, List.flatMap_append, List.length_append, List.length_append,
      List.flatMap_singleton, List.length_singleton]
    omega

theorem holds_new : Witness.new.repr.Holds [] :=
  ⟨rfl, ⟨by simp, by simp [cursors]⟩, by simp [Witness.new]⟩

theorem holds_of_consensusDecode {bs rest : Bytes} {w : WitnessRepr}
    (h : consensusDecode.run bs = .ok (w, rest)) :
    ∃ elems u, w.Holds elems ∧ encodeLen elems.length = .ok u ∧
      bs = u.bytes ++ elems.flatMap elementBytes ++ rest := by
  obtain ⟨elems, u, rfl, hl, hfit, hu, hbs⟩ := of_consensusDecode_eq_ok h
  refine ⟨elems, u, ⟨rfl, packable_of_le hl hfit, ?_⟩, hu, hbs⟩
  have hn := length_le_flatMap elems
  have hmax : MAX_VEC_SIZE = 4000000 := rfl
  rw [length_content_pack]
  omega

/-! ## What reading returns -/

theorem cursors_append (cursor : ℕ) (elems elems' : List Bytes) :
    cursors cursor (elems ++ elems') =
      cursors cursor elems ++ cursors (cursor + (elems.flatMap elementBytes).length) elems' := by
  induction elems generalizing cursor with
  | nil => simp [cursors]
  | cons e elems ih =>
    simp only [List.cons_append, cursors, ih, List.flatMap_cons, List.length_append, Nat.add_assoc]

theorem subslice_append {ε : Type} {bytes pre mid post : Bytes} {start stop : ℕ}
    (h : bytes = pre ++ (mid ++ post)) (hstart : start = pre.length) (hstop : stop = start + mid.length) :
    (subslice bytes start stop : Outcome ε Bytes) = .ok mid := by
  subst h hstart hstop
  rw [subslice, Outcome.require_of (by simp), Outcome.ok_bind, List.drop_left, Nat.add_sub_cancel_left,
    List.take_left]
  rfl

section Reading

variable {w : WitnessRepr} {elems : List Bytes}

/-- The position of an element in the index area. -/
theorem Holds.decodeCursor_eq {elem : Bytes} {pre post : List Bytes} (hw : w.Holds (pre ++ elem :: post)) :
    decodeCursor w.content w.indicesStart pre.length = .ok (some (pre.flatMap elementBytes).length) := by
  have hlen := hw.length_lt
  obtain ⟨rfl, hpack, -⟩ := hw
  have hcursor : (pre.flatMap elementBytes).length < 2 ^ 32 := by
    apply hpack.cursor_lt
    rw [cursors_append, cursors, Nat.zero_add]
    exact List.mem_append_right _ List.mem_cons_self
  have hcontent : (pack (pre ++ elem :: post)).content =
      ((pre ++ elem :: post).flatMap elementBytes ++ indexBytes pre) ++
        (leBytes 4 (pre.flatMap elementBytes).length ++
          (cursors ((pre.flatMap elementBytes).length + (elementBytes elem).length) post).flatMap
            (leBytes 4)) := by
    simp [pack, indexBytes, cursors_append, cursors]
  have hstart : (pack (pre ++ elem :: post)).indicesStart + pre.length * 4 =
      ((pre ++ elem :: post).flatMap elementBytes ++ indexBytes pre).length := by
    rw [List.length_append, length_indexBytes]
    rfl
  rw [length_content_pack, List.length_append, List.length_cons] at hlen
  have hindices : (pack (pre ++ elem :: post)).indicesStart =
    ((pre ++ elem :: post).flatMap elementBytes).length := rfl
  have hend : ¬ (pack (pre ++ elem :: post)).content.length <
      (pack (pre ++ elem :: post)).indicesStart + pre.length * 4 + 4 := by
    rw [length_content_pack, List.length_append, List.length_cons, hindices]
    omega
  simp only [decodeCursor]
  rw [Outcome.require_of (by rw [hindices]; omega), Outcome.ok_bind, if_neg hend,
    subslice_append hcontent hstart (by simp), Outcome.ok_bind, leNat_leBytes_of_lt hcursor]
  rfl

/-- The position of the cursor of an element is computed without an overflow. -/
def Fits (w : WitnessRepr) (index : ℕ) : Prop := w.indicesStart + index * 4 + 4 < 2 ^ 64

theorem Holds.fits (hw : w.Holds elems) {index : ℕ} (hle : index ≤ 2 ^ 32) : w.Fits index := by
  have hlen := hw.length_lt
  obtain ⟨rfl, -, -⟩ := hw
  have hindices : (pack elems).indicesStart = (elems.flatMap elementBytes).length := rfl
  rw [length_content_pack] at hlen
  rw [Fits, hindices]
  omega

/-- Past the last element there is no position. -/
theorem Holds.decodeCursor_eq_none (hw : w.Holds elems) {index : ℕ} (hge : elems.length ≤ index)
    (hfits : w.Fits index) : decodeCursor w.content w.indicesStart index = .ok none := by
  obtain ⟨rfl, -, -⟩ := hw
  have hindices : (pack elems).indicesStart = (elems.flatMap elementBytes).length := rfl
  simp only [decodeCursor]
  rw [Outcome.require_of (by exact hfits), Outcome.ok_bind, if_pos]
  · rfl
  · rw [length_content_pack, hindices]
    omega

/-- The element at a position. -/
theorem Holds.elementAt_eq {elem : Bytes} {pre post : List Bytes} (hw : w.Holds (pre ++ elem :: post)) :
    elementAt w.content (pre.flatMap elementBytes).length = .ok (some elem) := by
  have hlen := hw.length_lt
  obtain ⟨rfl, hpack, -⟩ := hw
  have hval : (UInt64.ofNat elem.length).toNat = elem.length :=
    UInt64.toNat_ofNat_of_lt' (hpack.length_lt elem (by simp))
  have hvarint := (VarInt.mk (UInt64.ofNat elem.length)).length_written
  have hcontent : (pack (pre ++ elem :: post)).content = pre.flatMap elementBytes ++
      ((VarInt.mk (UInt64.ofNat elem.length)).written.bytes ++
        (elem ++ (post.flatMap elementBytes ++ indexBytes (pre ++ elem :: post)))) := by
    simp [pack, elementBytes]
  have hsize := congrArg List.length hcontent
  simp only [List.length_append, hvarint] at hsize
  rw [elementAt, Outcome.require_of (by rw [hsize]; omega), Outcome.ok_bind, hcontent, List.drop_left,
    VarInt.roundTrips _ _ trivial rfl]
  simp only [hval]
  rw [Outcome.require_of (by omega), Outcome.ok_bind, ← List.append_assoc,
    subslice_append rfl (by simp [hvarint]) rfl]
  rfl

theorem Holds.nth_of_fits (hw : w.Holds elems) {index : ℕ} (hfits : w.Fits index) :
    w.nth index = .ok elems[index]? := by
  rw [nth]
  by_cases h : index < elems.length
  · have hsplit := List.take_append_drop index elems
    rw [List.drop_eq_getElem_cons h] at hsplit
    rw [← hsplit] at hw
    have hpos : (elems.take index).length = index := by simp [h.le]
    have hcursor := hw.decodeCursor_eq
    rw [hpos] at hcursor
    rw [hcursor, Outcome.ok_bind, List.getElem?_eq_getElem h]
    exact hw.elementAt_eq
  · rw [hw.decodeCursor_eq_none (by omega) hfits, Outcome.ok_bind, List.getElem?_eq_none (by omega)]
    rfl

theorem Holds.nth_eq (hw : w.Holds elems) {index : ℕ} (hlt : index < 2 ^ 32) :
    w.nth index = .ok elems[index]? := hw.nth_of_fits (hw.fits hlt.le)

theorem nth_overflow {index : ℕ} (h : ¬w.Fits index) : w.nth index = .panic .overflow := by
  have hrequire : (.require (w.indicesStart + index * 4 + 4 < 2 ^ 64) .overflow : Outcome Empty Unit) =
      .panic .overflow := if_neg h
  rw [nth, decodeCursor]
  simp only [hrequire, Outcome.panic_bind]

theorem Holds.length_le (hw : w.Holds elems) : elems.length ≤ 2 ^ 32 := hw.packable.length_le

theorem Holds.witnessElements_eq (hw : w.Holds elems) : w.witnessElements = elems.length := by
  rw [hw.eq_pack]
  rfl

theorem Holds.fromEnd_eq (hw : w.Holds elems) (k : ℕ) : w.fromEnd k = .ok elems.reverse[k]? := by
  have hle := hw.length_le
  rw [fromEnd, hw.witnessElements_eq]
  split_ifs with h
  · rw [List.getElem?_eq_none (by simpa using h)]
    rfl
  · rw [hw.nth_eq (by omega), List.getElem?_reverse (by omega)]
    congr 2
    omega

theorem Holds.last_eq (hw : w.Holds elems) : w.last = .ok elems.getLast? := by
  have hlast := hw.fromEnd_eq 0
  simp only [fromEnd, Nat.le_zero, Nat.zero_add] at hlast
  rw [last, hlast, List.getLast?_eq_head?_reverse, List.head?_eq_getElem?]

/-- The iterator of `w` before its `k`-th element. -/
def iterAt (w : WitnessRepr) (k : ℕ) : Iter := ⟨w.content, w.indicesStart, k⟩

theorem Holds.next_iterAt (hw : w.Holds elems) {k : ℕ} (h : k < elems.length) :
    (w.iterAt k).next = .ok (some elems[k], w.iterAt (k + 1)) := by
  have hsplit := List.take_append_drop k elems
  rw [List.drop_eq_getElem_cons h] at hsplit
  rw [← hsplit] at hw
  have hpos : (elems.take k).length = k := by simp [h.le]
  have hcursor := hw.decodeCursor_eq
  rw [hpos] at hcursor
  simp only [Iter.next, iterAt]
  rw [hcursor, Outcome.ok_bind]
  simp only [hw.elementAt_eq, Outcome.ok_bind]
  rfl

theorem Holds.next_iterAt_end (hw : w.Holds elems) :
    (w.iterAt elems.length).next = .ok (none, w.iterAt elems.length) := by
  simp only [Iter.next, iterAt]
  rw [hw.decodeCursor_eq_none le_rfl (hw.fits hw.length_le)]
  rfl

theorem Holds.sizeHint_iterAt (hw : w.Holds elems) {k : ℕ} (h : k ≤ elems.length) :
    (w.iterAt k).sizeHint = .ok (elems.length - k, some (elems.length - k)) := by
  obtain ⟨rfl, -, -⟩ := hw
  have hlen : ((pack elems).iterAt k).inner.length = _ := length_content_pack elems
  have hindices : ((pack elems).iterAt k).indicesStart = (elems.flatMap elementBytes).length := rfl
  have hcount : (((pack elems).iterAt k).inner.length - ((pack elems).iterAt k).indicesStart) / 4 =
      elems.length := by
    omega
  have hk : ((pack elems).iterAt k).currentIndex ≤ elems.length := h
  rw [Iter.sizeHint, Outcome.require_of (by omega), Outcome.ok_bind]
  simp only [hcount]
  rw [Outcome.require_of hk]
  rfl

/-- The iterator returns the elements from the `k`-th on and stops. -/
theorem Holds.collect_iterAt (hw : w.Holds elems) (k : ℕ) {fuel : ℕ} (hk : k ≤ elems.length)
    (hfuel : elems.length < k + fuel) : (w.iterAt k).collect fuel = .ok (elems.drop k) := by
  induction fuel generalizing k with
  | zero => omega
  | succ fuel ih =>
    rw [Iter.collect]
    by_cases h : k < elems.length
    · rw [hw.next_iterAt h, Outcome.ok_bind, List.drop_eq_getElem_cons h]
      simp only [ih (k + 1) h (by omega), Outcome.ok_bind]
      rfl
    · obtain rfl : k = elems.length := by omega
      rw [hw.next_iterAt_end, List.drop_length]
      rfl

theorem Holds.collect_iter (hw : w.Holds elems) :
    w.iter.collect (w.content.length + 1) = .ok elems := by
  have hlen : elems.length < 0 + (w.content.length + 1) := by
    rw [hw.eq_pack, length_content_pack]
    omega
  exact hw.collect_iterAt 0 (Nat.zero_le _) hlen

theorem Holds.toVec_eq (hw : w.Holds elems) : w.toVec = .ok elems := hw.collect_iter

theorem Holds.size_eq (hw : w.Holds elems) :
    w.size = .ok ((VarInt.mk (UInt64.ofNat elems.length)).size + (elems.flatMap elementBytes).length) := by
  have hsum : (elems.map fun elem => (VarInt.mk (UInt64.ofNat elem.length)).size + elem.length).sum =
      (elems.flatMap elementBytes).length := by
    rw [← sum_sizes]
    simp only [Nat.add_comm]
  rw [size, hw.collect_iter, Outcome.ok_bind, hw.witnessElements_eq, hsum]
  rfl

/-- A witness holds one list. -/
theorem Holds.unique {elems' : List Bytes} (hw : w.Holds elems) (hw' : w.Holds elems') :
    elems = elems' :=
  Outcome.ok.inj (hw.toVec_eq.symm.trans hw'.toVec_eq)

/-- What `consensus_encode` writes, and what the decoder makes of it. -/
theorem Holds.consensusEncode_eq (hw : w.Holds elems) :
    consensusEncode w = .ok ⟨(VarInt.mk (UInt64.ofNat elems.length)).written.bytes ++
        elems.flatMap elementBytes,
      (elems.flatMap elementBytes).length + (VarInt.mk (UInt64.ofNat elems.length)).size⟩ := by
  have hlt : elems.length < 2 ^ 64 := hw.length_le.trans_lt (by decide)
  rw [hw.eq_pack]
  exact consensusEncode_pack.2 ⟨_, encodeLen_eq_ok_iff.2 ⟨hlt, rfl⟩, rfl⟩

theorem Holds.consensusDecode_eq (hw : w.Holds elems)
    (hfits : ((VarInt.mk (UInt64.ofNat elems.length)).written.bytes ++
      elems.flatMap elementBytes).length ≤ MAX_VEC_SIZE) (rest : Bytes) :
    consensusDecode.run ((VarInt.mk (UInt64.ofNat elems.length)).written.bytes ++
      elems.flatMap elementBytes ++ rest) = .ok (w, rest) := by
  have hlt : elems.length < 2 ^ 64 := hw.length_le.trans_lt (by decide)
  rw [List.length_append] at hfits
  rw [hw.eq_pack]
  exact consensusDecode_pack (encodeLen_eq_ok_iff.2 ⟨hlt, rfl⟩) (by omega) rest

end Reading

/-! ## Runs -/

/-- The operations that make or change a witness. -/
inductive Op where
  | new
  | fromSlice (slice : List Bytes)
  | push (newElement : Bytes)
  | clear
  | consensusDecode (bytes : Bytes)

/-- An operation on the witness `w`; all but `push` put a new one in its place. -/
def Op.run (w : WitnessRepr) : Op → Outcome EncodeError WitnessRepr
  | new => return Witness.new.repr
  | fromSlice slice => .lift (WitnessRepr.fromSlice slice)
  | push newElement => .lift (w.push newElement)
  | clear => return w.clear
  | consensusDecode bytes => Prod.fst <$> WitnessRepr.consensusDecode.run bytes

/-- What an operation does to the list of elements. -/
def Op.Means (elems elems' : List Bytes) : Op → Prop
  | new => elems' = []
  | fromSlice slice => elems' = slice
  | push newElement => elems' = elems ++ [newElement]
  | clear => elems' = []
  | consensusDecode bytes => ∃ rest, bytes =
      (VarInt.mk (UInt64.ofNat elems'.length)).written.bytes ++ elems'.flatMap elementBytes ++ rest

/-- A run of operations, all of which return, from an empty witness. -/
def runOps (ops : List Op) : Outcome EncodeError WitnessRepr := ops.foldlM Op.run Witness.new.repr

/-- What a run of operations does to the list of elements. -/
def MeansAll : List Op → List Bytes → List Bytes → Prop
  | [], elems, elems' => elems' = elems
  | op :: ops, elems, elems' => ∃ mid, op.Means elems mid ∧ MeansAll ops mid elems'

theorem Holds.step {w w' : WitnessRepr} {elems : List Bytes} (hw : w.Holds elems) {op : Op}
    (h : op.run w = .ok w') : ∃ elems', op.Means elems elems' ∧ w'.Holds elems' := by
  cases op with
  | new =>
    cases h
    exact ⟨[], rfl, holds_new⟩
  | fromSlice slice => exact ⟨slice, rfl, holds_of_fromSlice (Outcome.lift_eq_ok_iff.1 h)⟩
  | push newElement => exact ⟨_, rfl, hw.push (Outcome.lift_eq_ok_iff.1 h)⟩
  | clear =>
    cases h
    exact ⟨[], rfl, holds_new⟩
  | consensusDecode bytes =>
    obtain ⟨⟨r, rest⟩, hrun, rfl⟩ := Outcome.map_eq_ok_iff.1 h
    obtain ⟨elems', u, hr, hu, hbytes⟩ := holds_of_consensusDecode hrun
    obtain rfl := Outcome.ok.inj (encodeLen_eq_ok_iff.1 hu).2
    exact ⟨elems', ⟨rest, hbytes⟩, hr⟩

theorem Holds.foldlM {w w' : WitnessRepr} {elems : List Bytes} (hw : w.Holds elems) {ops : List Op}
    (h : ops.foldlM Op.run w = .ok w') : ∃ elems', MeansAll ops elems elems' ∧ w'.Holds elems' := by
  induction ops generalizing w elems with
  | nil =>
    cases h
    exact ⟨elems, rfl, hw⟩
  | cons op ops ih =>
    rw [List.foldlM_cons] at h
    obtain ⟨mid, hop, h⟩ := Outcome.bind_eq_ok_iff.1 h
    obtain ⟨elems₁, hmeans, hmid⟩ := hw.step hop
    obtain ⟨elems₂, hall, hw'⟩ := ih hmid h
    exact ⟨elems₂, ⟨elems₁, hmeans, hall⟩, hw'⟩

/-- Every way of reading the witness `w` gives the list `elems`, and so does its encoding. -/
structure Agrees (w : WitnessRepr) (elems : List Bytes) : Prop where
  len : w.len = elems.length
  isEmpty : w.isEmpty = elems.isEmpty
  toVec : w.toVec = .ok elems
  next : ∀ k (h : k < elems.length), (w.iterAt k).next = .ok (some elems[k], w.iterAt (k + 1))
  nextEnd : (w.iterAt elems.length).next = .ok (none, w.iterAt elems.length)
  sizeHint : ∀ k ≤ elems.length,
    (w.iterAt k).sizeHint = .ok (elems.length - k, some (elems.length - k))
  last : w.last = .ok elems.getLast?
  secondToLast : w.secondToLast = .ok elems.reverse[1]?
  thirdToLast : w.thirdToLast = .ok elems.reverse[2]?
  nth : ∀ index < 2 ^ 32, w.nth index = .ok elems[index]?
  encode : ∃ v, consensusEncode w = .ok v ∧
    v.bytes = (VarInt.mk (UInt64.ofNat elems.length)).written.bytes ++ elems.flatMap elementBytes ∧
    v.len = v.bytes.length ∧ w.size = .ok v.bytes.length ∧
    (v.bytes.length ≤ MAX_VEC_SIZE → ∀ rest, consensusDecode.run (v.bytes ++ rest) = .ok (w, rest))

theorem Holds.agrees {w : WitnessRepr} {elems : List Bytes} (hw : w.Holds elems) : w.Agrees elems where
  len := hw.witnessElements_eq
  isEmpty := by
    rw [WitnessRepr.isEmpty, hw.witnessElements_eq]
    cases elems <;> rfl
  toVec := hw.toVec_eq
  next _ h := hw.next_iterAt h
  nextEnd := hw.next_iterAt_end
  sizeHint _ h := hw.sizeHint_iterAt h
  last := hw.last_eq
  secondToLast := hw.fromEnd_eq 1
  thirdToLast := hw.fromEnd_eq 2
  nth _ h := hw.nth_eq h
  encode := by
    have hlen := (VarInt.mk (UInt64.ofNat elems.length)).length_written
    refine ⟨_, hw.consensusEncode_eq, rfl, ?_, ?_, fun hfits rest => hw.consensusDecode_eq hfits rest⟩
    · simp only [List.length_append, hlen, Nat.add_comm]
    · rw [hw.size_eq, List.length_append, hlen]

/-- `nth` returns the element of a `usize` index, or nothing past the end, exactly as long as the position
of the cursor that it looks for is a `usize` too. -/
theorem runOps_nth_iff (ops : List Op) (w : WitnessRepr) (h : runOps ops = .ok w) :
    ∃ elems, MeansAll ops [] elems ∧ w.len = elems.length ∧
      ∀ index : UInt64, w.nth index.toNat = .ok elems[index.toNat]? ↔ w.Fits index.toNat := by
  obtain ⟨elems, hmeans, hw⟩ := holds_new.foldlM h
  refine ⟨elems, hmeans, hw.witnessElements_eq, ?_⟩
  intro index
  constructor
  · intro hnth
    by_contra hno
    rw [nth_overflow hno] at hnth
    cases hnth
  · exact hw.nth_of_fits

/-- A cleared witness that is filled from a slice and gets a third element. -/
def sampleOps : List Op := [.push [9], .clear, .fromSlice [[1], []], .push [2, 3]]

theorem runOps_nth_sample : ∃ elems, MeansAll sampleOps [] elems ∧ elems = [[1], [], [2, 3]] ∧
    ∀ index : UInt64, (pack [[1], [], [2, 3]]).nth index.toNat = .ok elems[index.toNat]? ↔
      (pack [[1], [], [2, 3]]).Fits index.toNat := by
  obtain ⟨elems, hmeans, -, hiff⟩ := runOps_nth_iff sampleOps (pack [[1], [], [2, 3]]) (by decide +kernel)
  refine ⟨elems, hmeans, ?_, hiff⟩
  obtain ⟨_, rfl, _, rfl, _, rfl, _, rfl, rfl⟩ := hmeans
  rfl

/-- The greatest `usize`, on the empty witness. -/
theorem nth_max_overflow : runOps [] = .ok Witness.new.repr ∧
    Witness.new.repr.nth 0xFFFFFFFFFFFFFFFF = .panic .overflow ∧
    Witness.new.repr.nth 0xFFFFFFFFFFFFFFFF ≠ .ok ([] : List Bytes)[0xFFFFFFFFFFFFFFFF]? := by decide

end WitnessRepr

end RustDogecoin
