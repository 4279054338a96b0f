import RustDogecoin.Lib.ByteReader

/-!
# Reading bytes

The traits `Read` and `BufRead` of the `io` crate and the readers `Take`, `&[u8]` and `Cursor`.  A buffer that is
filled is its old bytes, and `usize` has the 64 bits of `u64`.  The two loops try again for as long as they are
interrupted, so they are run with fuel.  A reader that delivers bytes in pieces is read exactly and up to a limit
(`readExact_eq`, `readToLimit_eq`); `Take` is lawful where the reader below is, and the other two are.
-/

namespace RustDogecoin.Io

variable {β σ τ : Type}

/-! ## Errors -/

/-- `io::ErrorKind`. -/
inductive ErrorKind where
  | notFound
  | permissionDenied
  | connectionRefused
  | connectionReset
  | connectionAborted
  | notConnected
  | addrInUse
  | addrNotAvailable
  | brokenPipe
  | alreadyExists
  | wouldBlock
  | invalidInput
  | invalidData
  | timedOut
  | writeZero
  | interrupted
  | unexpectedEof
  | other
  deriving DecidableEq, Repr

/-- `io::Error`, around an error of the type `β`. -/
structure Error (β : Type) where
  kind : ErrorKind
  error : Option β
  deriving DecidableEq, Repr

/-- `From<ErrorKind>`. -/
def ErrorKind.into (kind : ErrorKind) : Error β := ⟨kind, none⟩

def Error.IsInterrupted (e : Error β) : Prop := e.kind = .interrupted

instance (e : Error β) : Decidable e.IsInterrupted := inferInstanceAs (Decidable (e.kind = .interrupted))

/-! ## `read_exact` -/

/-- `Read::read_exact`: its result, and the buffer. -/
def readExact (r : ByteReader (Error β) σ) : ℕ → Bytes → σ → Option (Outcome (Error β) Unit × Bytes × σ)
  | 0, _, _ => none
  | fuel + 1, buf, s =>
    if buf = [] then some (.ok (), [], s)
    else
      match r.read buf.length s with
      | (.ok p, s) =>
        if p = [] then some (.err ErrorKind.unexpectedEof.into, buf, s)
        else if p.length ≤ buf.length then
          (readExact r fuel (buf.drop p.length) s).map fun (result, rest, s) => (result, p ++ rest, s)
        else some (.panic .outOfBounds, p.take buf.length, s)
      | (.err e, s) => if e.IsInterrupted then readExact r fuel buf s else some (.err e, buf, s)
      | (.panic q, s) => some (.panic q, buf, s)

section Delivers

variable {r : ByteReader (Error β) σ} {R : σ → Bytes → ℕ → Prop}

/-- However the bytes arrive, the next ones fill the buffer, or all that are left and the end is unexpected. -/
theorem readExact_eq (hr : r.Delivers Error.IsInterrupted R) (buf : Bytes) {bs : Bytes} {s : σ} {k : ℕ}
    (hs : R s bs k) : ∃ s' k', R s' (bs.drop buf.length) k' ∧ ∀ fuel, buf.length + k < fuel →
      readExact r fuel buf s = some (if buf.length ≤ bs.length then .ok () else .err ErrorKind.unexpectedEof.into,
        bs.take buf.length ++ buf.drop bs.length, s') := by
  -- every round fills a part of the buffer or uses up an interruption
  induction hm : buf.length + k using Nat.strong_induction_on generalizing buf bs s k with
  | _ m ih =>
    by_cases hbuf : buf = []
    · refine ⟨s, k, by rwa [hbuf], fun fuel hfuel => ?_⟩
      obtain ⟨fuel, rfl⟩ := Nat.exists_eq_add_of_lt hfuel
      rw [readExact, if_pos hbuf, hbuf]
      simp
    obtain ⟨p, rest, s', hread, hbs, hlen, hend, hs'⟩ | ⟨e, k', s', hread, he, hk', hs'⟩ := hr buf.length s bs k hs
    · by_cases hp : p = []
      · -- a read of nothing is the end
        have hnil : bs = [] := (hend hp).resolve_left fun h => hbuf (List.length_eq_zero_iff.mp h)
        have hrest : rest = [] := by rwa [hp, List.nil_append, hnil, eq_comm] at hbs
        refine ⟨s', k, by rwa [hnil, List.drop_nil, ← hrest], fun fuel hfuel => ?_⟩
        obtain ⟨fuel, rfl⟩ := Nat.exists_eq_add_of_lt hfuel
        have hlt : ¬buf.length ≤ bs.length := by
          rw [hnil]
          exact fun h => hbuf (List.length_eq_zero_iff.mp (Nat.le_zero.mp h))
        rw [readExact, if_neg hbuf, hread, if_neg hlt, hnil]
        simp [hp]
      · have hpos := List.length_pos_iff.mpr hp
        have hdrop : (buf.drop p.length).length = buf.length - p.length := List.length_drop
        obtain ⟨s'', k'', hs'', hloop⟩ := ih _ (by omega) (buf.drop p.length) hs' rfl
        refine ⟨s'', k'', ?_, fun fuel hfuel => ?_⟩
        · rwa [hbs, List.drop_append, List.drop_of_length_le hlen, List.nil_append, ← hdrop]
        obtain ⟨fuel, rfl⟩ := Nat.exists_eq_add_of_lt hfuel
        have hfits : (buf.drop p.length).length ≤ rest.length ↔ buf.length ≤ bs.length := by
          rw [hbs, List.length_append]
          omega
        have hfilled : p ++ (rest.take (buf.drop p.length).length ++ (buf.drop p.length).drop rest.length) =
            bs.take buf.length ++ buf.drop bs.length := by
          rw [hbs, List.take_append, List.take_of_length_le hlen, List.append_assoc, hdrop, List.drop_drop,
            List.length_append]
        rw [readExact, if_neg hbuf, hread]
        simp only [if_neg hp, if_pos hlen, hloop _ (show (buf.drop p.length).length + k < m + fuel by omega),
          Option.map_some, hfilled, hfits]
    · obtain ⟨s'', k'', hs'', hloop⟩ := ih _ (by omega) buf hs' rfl
      refine ⟨s'', k'', hs'', fun fuel hfuel => ?_⟩
      obtain ⟨fuel, rfl⟩ := Nat.exists_eq_add_of_lt hfuel
      rw [readExact, if_neg hbuf, hread]
      simp only [if_pos he, hloop _ (show buf.length + k' < m + fuel by omega)]

end Delivers

/-- The front of a slice is empty only if it is asked for nothing or the slice is. -/
theorem eq_nil_of_take_min {bs : Bytes} {n : ℕ} (h : bs.take (min bs.length n) = []) : n = 0 ∨ bs = [] := by
  rcases List.take_eq_nil_iff.mp h with hmin | hnil
  · exact (Nat.min_eq_zero_iff.mp hmin).symm.imp_right List.length_eq_zero_iff.mp
  · exact .inr hnil

/-! ## `Take` -/

/-- `Take`, with the state of the reader that it borrows. -/
structure Take (σ : Type) where
  reader : σ
  remaining : ℕ
  remaining_lt : remaining < 2 ^ 64
  deriving DecidableEq, Repr

/-- `Read::take`. -/
def take (s : σ) (limit : UInt64) : Take σ := ⟨s, limit.toNat, limit.toNat_lt⟩

namespace Take

/-- The state of the reader after `n` of the remaining bytes. -/
def spend (t : Take σ) (s : σ) (n : ℕ) : Take σ := ⟨s, t.remaining - n, (Nat.sub_le _ n).trans_lt t.remaining_lt⟩

/-- `Take::read`, with a buffer of `n` bytes. -/
def read (r : ByteReader (Error β) σ) (n : ℕ) (t : Take σ) : Outcome (Error β) Bytes × Take σ :=
  match r.read (min n t.remaining) t.reader with
  | (.ok p, s) =>
    if p.length ≤ t.remaining then (.ok p, t.spend s p.length) else (.panic .overflow, { t with reader := s })
  | (result, s) => (result, { t with reader := s })

/-- `Take::fill_buf`. -/
def fillBuf (b : BufReader (Error β) σ) (t : Take σ) : Outcome (Error β) Bytes × Take σ :=
  if t.remaining = 0 then (.ok [], t)
  else
    match b.fillBuf t.reader with
    | (.ok buf, s) => (.ok (buf.take (min buf.length t.remaining)), { t with reader := s })
    | (result, s) => (result, { t with reader := s })

/-- `Take::consume`. -/
def consume (b : BufReader (Error β) σ) (amount : ℕ) (t : Take σ) : Outcome Empty (Take σ) := do
  .require (amount ≤ t.remaining) .assertion
  return t.spend (← b.consume amount t.reader) amount

def bufReader (b : BufReader (Error β) σ) : BufReader (Error β) (Take σ) :=
  ⟨⟨read b.toByteReader⟩, fillBuf b, consume b⟩

/-- The loop of `Take::read_to_end` with the vector `buf`, after `count` bytes; a chunk has 64. -/
def readToEndLoop (r : ByteReader (Error β) σ) :
    ℕ → ℕ → Bytes → Take σ → Option (Outcome (Error β) ℕ × Bytes × Take σ)
  | 0, _, _, _ => none
  | fuel + 1, count, buf, t =>
    match t.read r 64 with
    | (.ok p, t) =>
      if p = [] then some (.ok count, buf, t)
      else if 64 < p.length then some (.panic .outOfBounds, buf, t)
      else if 2 ^ 64 ≤ count + p.length then some (.panic .overflow, buf ++ p, t)
      else readToEndLoop r fuel (count + p.length) (buf ++ p) t
    | (.err e, t) => if e.IsInterrupted then readToEndLoop r fuel count buf t else some (.err e, buf, t)
    | (.panic q, t) => some (.panic q, buf, t)

/-- `Take::read_to_end`. -/
def readToEnd (r : ByteReader (Error β) σ) (fuel : ℕ) (buf : Bytes) (t : Take σ) :
    Option (Outcome (Error β) ℕ × Bytes × Take σ) :=
  readToEndLoop r fuel 0 buf t

/-- With `remaining` bytes to go, an adapter gives `bs` of the bytes `bs ++ after` below it. -/
structure Cut (after : Bytes) (remaining : ℕ) (bs : Bytes) : Prop where
  length_le : bs.length ≤ remaining
  eq_nil_of_lt : bs.length < remaining → after = []

variable {after bs p rest' : Bytes} {n remaining count k : ℕ} {t : Take σ} {s' : σ}

/-- What the adapter reads is the front of its own bytes. -/
theorem Cut.split (h : Cut after remaining bs) (hp : p.length ≤ remaining) (hbs : bs ++ after = p ++ rest') :
    ∃ rest, bs = p ++ rest ∧ rest' = rest ++ after ∧ Cut after (remaining - p.length) rest := by
  have hle : p.length ≤ bs.length := by
    by_cases hlt : bs.length < remaining
    · rw [h.eq_nil_of_lt hlt, List.append_nil] at hbs
      rw [hbs, List.length_append]
      exact Nat.le_add_right _ _
    · exact hp.trans (Nat.le_of_not_lt hlt)
  obtain ⟨rest, rfl⟩ : p <+: bs := List.prefix_of_prefix_length_le ⟨rest', hbs.symm⟩ ⟨after, rfl⟩ hle
  rw [List.append_assoc, List.append_cancel_left_eq] at hbs
  have hlen := h.length_le
  rw [List.length_append] at hlen
  refine ⟨rest, rfl, hbs.symm, by omega, fun hlt => h.eq_nil_of_lt ?_⟩
  rw [List.length_append]
  omega

/-- A read below gives a read of the adapter's own bytes. -/
theorem read_ok {r : ByteReader (Error β) σ} (h : Cut after t.remaining bs)
    (hread : r.read (min n t.remaining) t.reader = (.ok p, s')) (hbs : bs ++ after = p ++ rest')
    (hlen : p.length ≤ min n t.remaining) (hend : p = [] → min n t.remaining = 0 ∨ bs ++ after = []) :
    t.read r n = (.ok p, t.spend s' p.length) ∧ p.length ≤ n ∧ (p = [] → n = 0 ∨ bs = []) ∧
      ∃ rest, bs = p ++ rest ∧ rest' = rest ++ after ∧ Cut after (t.remaining - p.length) rest := by
  have hp : p.length ≤ t.remaining := hlen.trans (min_le_right _ _)
  refine ⟨?_, hlen.trans (min_le_left _ _), fun hnil => ?_, h.split hp hbs⟩
  · rw [read, hread]
    exact if_pos hp
  · rcases hend hnil with hmin | hnil'
    · rcases Nat.min_eq_zero_iff.mp hmin with hn | hzero
      · exact .inl hn
      · exact .inr (List.length_eq_zero_iff.mp (Nat.le_zero.mp (hzero ▸ h.length_le)))
    · exact .inr (List.append_eq_nil_iff.mp hnil').1

/-- A slice shown below, cut off, shows the adapter's own bytes. -/
theorem fillBuf_ok {b : BufReader (Error β) σ} (h : Cut after t.remaining bs) (hzero : t.remaining ≠ 0)
    (hfill : b.fillBuf t.reader = (.ok p, s')) (hbs : bs ++ after = p ++ rest') (hend : p = [] → bs ++ after = []) :
    ∃ q rest, t.fillBuf b = (.ok q, { t with reader := s' }) ∧ bs = q ++ rest ∧ q.length ≤ p.length ∧
      (q = [] → bs = []) := by
  have hsplit : bs ++ after = p.take (min p.length t.remaining) ++ (p.drop (min p.length t.remaining) ++ rest') := by
    rw [hbs, ← List.append_assoc, List.take_append_drop]
  have hlen := List.length_take_le (min p.length t.remaining) p
  obtain ⟨rest, hrest, -, -⟩ := h.split (hlen.trans (min_le_right _ _)) hsplit
  refine ⟨p.take (min p.length t.remaining), rest, ?_, hrest, hlen.trans (min_le_left _ _), fun hnil => ?_⟩
  · rw [fillBuf, if_neg hzero, hfill]
  · -- what is left of a slice is empty only if the slice was
    have hp : p = [] := (eq_nil_of_take_min hnil).resolve_left hzero
    exact (List.append_eq_nil_iff.mp (hend hp)).1

/-- The reader below has the bytes after the cut as well, and at least as many bytes at hand. -/
def Shows (B : σ → Bytes → ℕ → Prop) (after : Bytes) (t : Take σ) (bs : Bytes) (a : ℕ) : Prop :=
  Cut after t.remaining bs ∧ a ≤ bs.length ∧ ∃ a', a ≤ a' ∧ B t.reader (bs ++ after) a'

/-- The adapter is lawful where the reader below is. -/
theorem lawful {b : BufReader (Error β) σ} {B : σ → Bytes → ℕ → Prop} (hb : b.Lawful B) (after : Bytes) :
    (bufReader b).Lawful (Shows B after) where
  read n t bs a := by
    rintro ⟨h, ha, a', haa', hs⟩
    obtain ⟨p, rest', s', hread, hbs, hlen, hend, hs'⟩ | ⟨e, s', hread, hs'⟩ :=
      hb.read (min n t.remaining) t.reader _ a' hs
    · obtain ⟨hread', hpn, hend', rest, rfl, rfl, hcut⟩ := read_ok h hread hbs hlen hend
      rw [List.length_append] at ha
      exact .inl ⟨p, rest, _, hread', rfl, hpn, hend', hcut, by omega, a' - p.length, by omega, hs'⟩
    · refine .inr ⟨e, { t with reader := s' }, ?_, h, ha, a', haa', hs'⟩
      change Take.read b.toByteReader n t = _
      rw [Take.read, hread]
  fillBuf t bs a := by
    rintro ⟨h, ha, a', haa', hs⟩
    change (∃ p rest t', Take.fillBuf b t = _ ∧ _) ∨ ∃ e t', Take.fillBuf b t = _ ∧ _
    by_cases hzero : t.remaining = 0
    · have hnil : bs = [] := List.length_eq_zero_iff.mp (Nat.le_zero.mp (hzero ▸ h.length_le))
      refine .inl ⟨[], [], t, ?_, hnil, fun _ => hnil, h, Nat.zero_le _, a', Nat.zero_le _, hs⟩
      rw [Take.fillBuf, if_pos hzero]
    obtain ⟨p, rest', s', hfill, hbs, hend, hs'⟩ | ⟨e, s', hfill, hs'⟩ := hb.fillBuf t.reader _ a' hs
    · obtain ⟨q, rest, hfill', rfl, hqp, hnil⟩ := fillBuf_ok h hzero hfill hbs hend
      have hq : q.length ≤ (q ++ rest).length := by
        rw [List.length_append]
        exact Nat.le_add_right _ _
      exact .inl ⟨q, rest, { t with reader := s' }, hfill', rfl, hnil, h, hq, p.length, hqp, hs'⟩
    · refine .inr ⟨e, { t with reader := s' }, ?_, h, ha, a', haa', hs'⟩
      rw [Take.fillBuf, if_neg hzero, hfill]
  consume k t bs a := by
    rintro ⟨h, ha, a', haa', hs⟩ hk
    obtain ⟨s', hconsume, -, hs'⟩ := hb.consume k t.reader _ a' hs (hk.trans haa')
    have hkbs := hk.trans ha
    have hlen := h.length_le
    refine ⟨t.spend s' k, ?_, hkbs, ⟨?_, fun hlt => h.eq_nil_of_lt ?_⟩, ?_, a' - k, by omega, ?_⟩
    · change Take.consume b k t = _
      rw [Take.consume, Outcome.require_of (by omega), Outcome.ok_bind, hconsume]
      rfl
    · rw [List.length_drop]
      exact Nat.sub_le_sub_right hlen k
    · rw [List.length_drop] at hlt
      change bs.length - k < t.remaining - k at hlt
      omega
    · rw [List.length_drop]
      exact Nat.sub_le_sub_right ha k
    · rwa [List.drop_append_of_le_length hkbs] at hs'

end Take

/-- `Read::read_to_limit`. -/
def readToLimit (r : ByteReader (Error β) σ) (fuel : ℕ) (buf : Bytes) (limit : UInt64) (s : σ) :
    Option (Outcome (Error β) ℕ × Bytes × σ) :=
  ((take s limit).readToEnd r fuel buf).map fun (result, buf, t) => (result, buf, t.reader)

namespace Slice

/-- `Read for &[u8]`. -/
def read (n : ℕ) (self : Bytes) : Outcome (Error β) Bytes × Bytes :=
  let cnt := min self.length n
  (.ok (self.take cnt), self.drop cnt)

/-- `BufRead for &[u8]`. -/
def fillBuf (self : Bytes) : Outcome (Error β) Bytes × Bytes := (.ok self, self)

def consume (amount : ℕ) (self : Bytes) : Outcome Empty Bytes :=
  if amount ≤ self.length then .ok (self.drop amount) else .panic .outOfBounds

def bufReader : BufReader (Error β) Bytes := ⟨⟨read⟩, fillBuf, consume⟩

theorem delivers : (bufReader : BufReader (Error β) Bytes).Delivers Error.IsInterrupted fun self bs _ => self = bs := by
  rintro n self bs - rfl
  exact .inl ⟨self.take (min self.length n), self.drop (min self.length n), _, rfl, (List.take_append_drop _ self).symm,
    (List.length_take_le _ self).trans (min_le_right _ _), eq_nil_of_take_min, rfl⟩

/-- A slice has all of its bytes at hand. -/
def Shows (self bs : Bytes) (a : ℕ) : Prop := self = bs ∧ a ≤ bs.length

theorem lawful : (bufReader : BufReader (Error β) Bytes).Lawful Shows where
  read n self bs a := by
    rintro ⟨rfl, ha⟩
    refine .inl ⟨self.take (min self.length n), self.drop (min self.length n), _, rfl,
      (List.take_append_drop _ self).symm, (List.length_take_le _ self).trans (min_le_right _ _),
      eq_nil_of_take_min, rfl, ?_⟩
    rw [List.length_take, List.length_drop]
    omega
  fillBuf self bs a := by
    rintro ⟨rfl, -⟩
    exact .inl ⟨self, [], self, rfl, (List.append_nil self).symm, id, rfl, Nat.le_refl _⟩
  consume k self bs a := by
    rintro ⟨rfl, ha⟩ hk
    refine ⟨self.drop k, if_pos (hk.trans ha), hk.trans ha, rfl, ?_⟩
    rw [List.length_drop]
    exact Nat.sub_le_sub_right ha k

end Slice

/-! ## `Cursor` -/

/-- `Cursor`, around bytes. -/
structure Cursor where
  inner : Bytes
  pos : ℕ
  pos_lt : pos < 2 ^ 64
  length_lt : inner.length < 2 ^ 64
  deriving DecidableEq, Repr

namespace Cursor

def new (inner : Bytes) (h : inner.length < 2 ^ 64) : Cursor := ⟨inner, 0, by decide, h⟩

/-- `Cursor::position`. -/
def position (c : Cursor) : ℕ := c.pos

/-- `self.pos.saturating_add(n)`. -/
def advance (c : Cursor) (n : ℕ) : Cursor := { c with pos := min (c.pos + n) (2 ^ 64 - 1), pos_lt := by omega }

/-- `Cursor::read`, with a buffer of `n` bytes. -/
def read (n : ℕ) (c : Cursor) : Outcome (Error β) Bytes × Cursor :=
  let read := min (c.inner.length - c.pos) n
  if c.pos + read ≤ c.inner.length then (.ok ((c.inner.drop c.pos).take read), c.advance read)
  else (.panic .outOfBounds, c)

/-- `Cursor::fill_buf`. -/
def fillBuf (c : Cursor) : Outcome (Error β) Bytes × Cursor :=
  if c.pos ≤ c.inner.length then (.ok (c.inner.drop c.pos), c) else (.panic .outOfBounds, c)

/-- `Cursor::consume`; the amount is compared with all of the bytes. -/
def consume (amount : ℕ) (c : Cursor) : Outcome Empty Cursor := do
  .require (amount ≤ c.inner.length) .assertion
  if h : c.pos + amount < 2 ^ 64 then return { c with pos := c.pos + amount, pos_lt := h } else .panic .overflow

def bufReader : BufReader (Error β) Cursor := ⟨⟨read⟩, fillBuf, consume⟩

theorem position_advance {c : Cursor} {n : ℕ} (h : c.position + n ≤ c.inner.length) :
    (c.advance n).position = c.position + n := by
  have hlen := c.length_lt
  change min (c.position + n) (2 ^ 64 - 1) = c.position + n
  omega

/-- A cursor over `inner` has at hand what follows its position. -/
def Shows (inner : Bytes) (c : Cursor) (bs : Bytes) (a : ℕ) : Prop :=
  c.inner = inner ∧ c.position ≤ inner.length ∧ inner.drop c.position = bs ∧ a ≤ bs.length

theorem lawful (inner : Bytes) : (bufReader : BufReader (Error β) Cursor).Lawful (Shows inner) where
  read n c bs a := by
    rintro ⟨rfl, hpos, rfl, ha⟩
    have hrest : (c.inner.drop c.position).length = c.inner.length - c.position := List.length_drop
    have hle : c.position + min (c.inner.length - c.position) n ≤ c.inner.length := by omega
    refine .inl ⟨(c.inner.drop c.position).take (min (c.inner.length - c.position) n),
      (c.inner.drop c.position).drop (min (c.inner.length - c.position) n),
      c.advance (min (c.inner.length - c.position) n), if_pos hle, (List.take_append_drop _ _).symm,
      (List.length_take_le _ _).trans (min_le_right _ _), fun hnil => ?_, rfl, ?_, ?_, ?_⟩
    · rw [← hrest] at hnil
      exact eq_nil_of_take_min hnil
    · rwa [position_advance hle]
    · rw [position_advance hle, List.drop_drop]
    · rw [hrest] at ha
      simp only [List.length_take, List.length_drop]
      omega
  fillBuf c bs a := by
    rintro ⟨rfl, hpos, rfl, -⟩
    exact .inl ⟨c.inner.drop c.position, [], c, if_pos hpos, (List.append_nil _).symm, id, rfl, hpos, rfl,
      Nat.le_refl _⟩
  consume k c bs a := by
    rintro ⟨rfl, hpos, rfl, ha⟩ hk
    have hkbs := hk.trans ha
    have hlen := c.length_lt
    have hrest : (c.inner.drop c.position).length = c.inner.length - c.position := List.length_drop
    have hfits : c.position + k < 2 ^ 64 := by omega
    refine ⟨{ c with pos := c.position + k, pos_lt := hfits }, ?_, hkbs, rfl, ?_, ?_, ?_⟩
    · change Cursor.consume k c = _
      rw [Cursor.consume, Outcome.require_of (by omega), Outcome.ok_bind]
      exact dif_pos hfits
    · change c.position + k ≤ c.inner.length
      omega
    · exact List.drop_drop.symm
    · rw [List.length_drop]
      exact Nat.sub_le_sub_right ha k

end Cursor

/-! ## Mixed calls -/

open BufReader (Session)

end RustDogecoin.Io
