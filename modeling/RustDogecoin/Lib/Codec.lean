import RustDogecoin.Lib.Outcome
import RustDogecoin.Lib.Bytes
import Mathlib.Logic.Equiv.Basic

/-!
# Binary codecs

An encoder writes bytes and returns their number; a decoder reads a value off the front of a byte
string and returns what is left.  A pair of them is `Lawful` on a set `P` of values when decoding
an encoding, with anything after it, gives the value back (`RoundTrips`), when every accepted byte
string is the encoding of the value returned, and that value is in `P` (`Canonical`), and when the
encoder returns the number of bytes it wrote (`Counts`).  The laws are closed under the ways
formats are put together: one field after the other (`seq`), a change of representation (`xmap`),
a list of known length (`times`) or with its length in front (`counted`), and a bound on the number
of bytes a decoder may read (`limit`).
-/

/-- What an encoder wrote, and the number of bytes it returned. -/
structure Written where
  bytes : Bytes
  len : ℕ
  deriving DecidableEq, Repr

namespace Written

instance : Append Written := ⟨fun a b => ⟨a.bytes ++ b.bytes, a.len + b.len⟩⟩

def empty : Written := ⟨[], 0⟩

/-- Bytes written whole, with their number returned. -/
def ofBytes (bs : Bytes) : Written := ⟨bs, bs.length⟩

@[simp] theorem bytes_append (a b : Written) : (a ++ b).bytes = a.bytes ++ b.bytes := rfl

@[simp] theorem len_append (a b : Written) : (a ++ b).len = a.len + b.len := rfl

@[simp] theorem bytes_empty : empty.bytes = [] := rfl

@[simp] theorem len_empty : empty.len = 0 := rfl

@[simp] theorem bytes_ofBytes (bs : Bytes) : (ofBytes bs).bytes = bs := rfl

@[simp] theorem len_ofBytes (bs : Bytes) : (ofBytes bs).len = bs.length := rfl

end Written

/-- Two pieces written one after the other. -/
theorem Written.bind_append_eq_ok_iff {x y : Outcome Empty Written} {w : Written} :
    (x >>= fun u => y >>= fun v => pure (u ++ v)) = .ok w ↔
      ∃ u v, x = .ok u ∧ y = .ok v ∧ w = u ++ v := by
  rw [Outcome.bind_eq_ok_iff]
  constructor
  · rintro ⟨u, hu, h⟩
    obtain ⟨v, hv, h⟩ := Outcome.bind_eq_ok_iff.1 h
    exact ⟨u, v, hu, hv, (Outcome.ok.inj h).symm⟩
  · rintro ⟨u, v, hu, hv, rfl⟩
    exact ⟨u, hu, by rw [hv]; rfl⟩

/-- Four pieces written one after the other. -/
theorem Written.bind_append_four_eq_ok_iff {x y z t : Outcome Empty Written} {w : Written} :
    (do return (← x) ++ (← y) ++ (← z) ++ (← t)) = Outcome.ok w ↔
      ∃ a b c d, x = .ok a ∧ y = .ok b ∧ z = .ok c ∧ t = .ok d ∧ w = a ++ b ++ c ++ d := by
  simp only [Outcome.bind_eq_ok_iff, Outcome.pure_eq_ok, Outcome.ok.injEq]
  constructor
  · rintro ⟨a, ha, b, hb, c, hc, d, hd, rfl⟩
    exact ⟨a, b, c, d, ha, hb, hc, hd, rfl⟩
  · rintro ⟨a, b, c, d, ha, hb, hc, hd, rfl⟩
    exact ⟨a, ha, b, hb, c, hc, d, hd, rfl⟩

/-- An encoder does not return errors, but it may panic. -/
abbrev Encoder (α : Type) := α → Outcome Empty Written

/-- A decoder consumes bytes from the front of its input. -/
abbrev Decoder (ε α : Type) := StateT Bytes (Outcome ε) α

namespace Decoder

variable {ε α β : Type}

/-- Read exactly `n` bytes. -/
def readExact (eof : ε) (n : ℕ) : Decoder ε Bytes := fun bs =>
  if n ≤ bs.length then .ok (bs.take n, bs.drop n) else .err eof

/-- Stop with an error. -/
def fail (e : ε) : Decoder ε α := fun _ => .err e

/-- Stop with the error `e` unless `c` holds. -/
def ensure (c : Prop) [Decidable c] (e : ε) : Decoder ε Unit := fun bs =>
  if c then .ok ((), bs) else .err e

/-- Run a computation that reads nothing. -/
def ofOutcome (x : Outcome ε α) : Decoder ε α := fun bs => x >>= fun a => .ok (a, bs)

/-- Let `d` see at most `n` bytes of the input. -/
def limit (n : ℕ) (d : Decoder ε α) : Decoder ε α := fun bs =>
  d.run (bs.take n) >>= fun r => .ok (r.1, r.2 ++ bs.drop n)

/-- Decode `n` values one after the other. -/
def times (d : Decoder ε α) : ℕ → Decoder ε (List α)
  | 0 => pure []
  | n + 1 => do
    let a ← d
    let as ← times d n
    return a :: as

/-- The error of a failed decoder, translated. -/
def mapErr {ζ : Type} (f : ε → ζ) (d : Decoder ε α) : Decoder ζ α := fun bs => (d.run bs).mapErr f

/-- Return with the value what is known of every value `d` returns. -/
def attach (d : Decoder ε α) {P : α → Prop} (hd : ∀ bs a rest, d.run bs = .ok (a, rest) → P a) :
    Decoder ε {a // P a} := fun bs =>
  match h : d.run bs with
  | .ok (a, rest) => .ok (⟨a, hd bs a rest h⟩, rest)
  | .err e => .err e
  | .panic p => .panic p

theorem run_readExact (eof : ε) (n : ℕ) (bs : Bytes) :
    (readExact eof n).run bs = if n ≤ bs.length then .ok (bs.take n, bs.drop n) else .err eof := rfl

theorem run_readExact_append (eof : ε) {n : ℕ} {bs : Bytes} (h : bs.length = n) (rest : Bytes) :
    (readExact eof n).run (bs ++ rest) = .ok (bs, rest) := by
  subst h
  rw [run_readExact, if_pos (by simp), List.take_left, List.drop_left]

theorem run_readExact_eq_ok_iff {eof : ε} {n : ℕ} {bs a rest : Bytes} :
    (readExact eof n).run bs = .ok (a, rest) ↔ bs = a ++ rest ∧ a.length = n := by
  constructor
  · intro h
    rw [run_readExact] at h
    split_ifs at h with hn
    simp only [Outcome.ok.injEq, Prod.mk.injEq] at h
    obtain ⟨rfl, rfl⟩ := h
    exact ⟨(List.take_append_drop n bs).symm, by simp [hn]⟩
  · rintro ⟨rfl, h⟩
    exact run_readExact_append eof h rest

@[simp] theorem run_fail (e : ε) (bs : Bytes) : (fail e : Decoder ε α).run bs = .err e := rfl

@[simp] theorem run_ofOutcome (x : Outcome ε α) (bs : Bytes) :
    (ofOutcome x).run bs = x >>= fun a => .ok (a, bs) := rfl

theorem run_ofOutcome_eq_ok_iff {x : Outcome ε α} {bs rest : Bytes} {a : α} :
    (ofOutcome x).run bs = .ok (a, rest) ↔ x = .ok a ∧ rest = bs := by
  cases x <;> simp [eq_comm]

@[simp] theorem run_pure_eq (a : α) (bs : Bytes) : (pure a : Decoder ε α).run bs = .ok (a, bs) := rfl

theorem run_bind_eq_ok_iff {d : Decoder ε α} {f : α → Decoder ε β} {bs rest : Bytes} {b : β} :
    (d >>= f).run bs = .ok (b, rest) ↔
      ∃ a mid, d.run bs = .ok (a, mid) ∧ (f a).run mid = .ok (b, rest) := by
  rw [StateT.run_bind, Outcome.bind_eq_ok_iff]
  exact ⟨fun ⟨⟨a, mid⟩, h, h'⟩ => ⟨a, mid, h, h'⟩, fun ⟨a, mid, h, h'⟩ => ⟨⟨a, mid⟩, h, h'⟩⟩

theorem run_bind_of_ok {d : Decoder ε α} {f : α → Decoder ε β} {bs mid : Bytes} {a : α}
    (h : d.run bs = .ok (a, mid)) : (d >>= f).run bs = (f a).run mid := by
  rw [StateT.run_bind, h]
  rfl

theorem run_ensure_bind_of {c : Prop} [Decidable c] (h : c) {e : ε} {f : Unit → Decoder ε α}
    {bs : Bytes} : (ensure c e >>= f).run bs = (f ()).run bs :=
  run_bind_of_ok (if_pos h)

theorem run_ensure_bind_eq_ok_iff {c : Prop} [Decidable c] {e : ε} {f : Unit → Decoder ε α}
    {bs rest : Bytes} {a : α} :
    (ensure c e >>= f).run bs = .ok (a, rest) ↔ c ∧ (f ()).run bs = .ok (a, rest) := by
  by_cases h : c
  · rw [run_ensure_bind_of h, and_iff_right h]
  · have hfail : (ensure c e).run bs = .err e := if_neg h
    rw [StateT.run_bind, hfail, Outcome.err_bind]
    simp [h]

theorem run_map_eq_ok_iff {d : Decoder ε α} {f : α → β} {bs rest : Bytes} {b : β} :
    (f <$> d).run bs = .ok (b, rest) ↔ ∃ a, d.run bs = .ok (a, rest) ∧ f a = b := by
  rw [StateT.run_map, Outcome.map_eq_ok_iff]
  constructor
  · rintro ⟨⟨a, r⟩, h, e⟩
    simp only [Prod.mk.injEq] at e
    obtain ⟨rfl, rfl⟩ := e
    exact ⟨a, h, rfl⟩
  · rintro ⟨a, h, rfl⟩
    exact ⟨(a, rest), h, rfl⟩

theorem run_limit (n : ℕ) (d : Decoder ε α) (bs : Bytes) :
    (limit n d).run bs = d.run (bs.take n) >>= fun r => .ok (r.1, r.2 ++ bs.drop n) := rfl

theorem run_limit_eq_ok_iff {n : ℕ} {d : Decoder ε α} {bs rest : Bytes} {a : α} :
    (limit n d).run bs = .ok (a, rest) ↔
      ∃ r, d.run (bs.take n) = .ok (a, r) ∧ rest = r ++ bs.drop n := by
  rw [run_limit, Outcome.bind_eq_ok_iff]
  constructor
  · rintro ⟨⟨a', r⟩, h, e⟩
    simp only [Outcome.ok.injEq, Prod.mk.injEq] at e
    obtain ⟨rfl, rfl⟩ := e
    exact ⟨r, h, rfl⟩
  · rintro ⟨r, h, rfl⟩
    exact ⟨(a, r), h, rfl⟩

/-- A bound that the input keeps has no effect. -/
theorem run_limit_of_le {n : ℕ} (d : Decoder ε α) {bs : Bytes} (h : bs.length ≤ n) :
    (limit n d).run bs = d.run bs := by
  rw [run_limit, List.take_of_length_le h, List.drop_of_length_le h]
  cases d.run bs <;> simp

theorem run_mapErr_eq_ok_iff {ζ : Type} {f : ε → ζ} {d : Decoder ε α} {bs rest : Bytes} {a : α} :
    (d.mapErr f).run bs = .ok (a, rest) ↔ d.run bs = .ok (a, rest) :=
  Outcome.mapErr_eq_ok_iff

theorem run_attach_eq_ok_iff {d : Decoder ε α} {P : α → Prop}
    {hd : ∀ bs a rest, d.run bs = .ok (a, rest) → P a} {bs rest : Bytes} {a : {a // P a}} :
    (d.attach hd).run bs = .ok (a, rest) ↔ d.run bs = .ok (a.1, rest) := by
  unfold attach StateT.run
  dsimp only
  split <;> rename_i h <;> simp [h, Subtype.ext_iff]

theorem run_attach_of_err {d : Decoder ε α} {P : α → Prop}
    {hd : ∀ bs a rest, d.run bs = .ok (a, rest) → P a} {bs : Bytes} {e : ε}
    (h : d.run bs = .err e) : (d.attach hd).run bs = .err e := by
  change d bs = _ at h
  unfold attach StateT.run
  dsimp only
  split <;> simp_all

theorem run_attach_of_panic {d : Decoder ε α} {P : α → Prop}
    {hd : ∀ bs a rest, d.run bs = .ok (a, rest) → P a} {bs : Bytes} {q : Panic}
    (h : d.run bs = .panic q) : (d.attach hd).run bs = .panic q := by
  change d bs = _ at h
  unfold attach StateT.run
  dsimp only
  split <;> simp_all

end Decoder

/-! ## Laws -/

section Laws

variable {ε α β : Type}

/-- Decoding the encoding of a value in `P`, whatever follows it, gives the value back. -/
def RoundTrips (enc : Encoder α) (dec : Decoder ε α) (P : α → Prop) : Prop :=
  ∀ a w, P a → enc a = .ok w → ∀ rest, dec.run (w.bytes ++ rest) = .ok (a, rest)

/-- What the decoder accepts is the encoding of the value it returns, and that value is in `P`. -/
def Canonical (enc : Encoder α) (dec : Decoder ε α) (P : α → Prop) : Prop :=
  ∀ bs a rest, dec.run bs = .ok (a, rest) → P a ∧ ∃ w, enc a = .ok w ∧ bs = w.bytes ++ rest

/-- The encoder returns the number of bytes it wrote. -/
def Counts (enc : Encoder α) : Prop := ∀ a w, enc a = .ok w → w.len = w.bytes.length

/-- The encoding of `a`, if there is one, has at most `n` bytes. -/
def Fits (enc : Encoder α) (n : ℕ) (a : α) : Prop := ∀ w, enc a = .ok w → w.bytes.length ≤ n

/-- The laws of a codec whose decoder returns exactly the values in `P`. -/
structure Lawful (enc : Encoder α) (dec : Decoder ε α) (P : α → Prop) : Prop where
  counts : Counts enc
  roundTrips : RoundTrips enc dec P
  canonical : Canonical enc dec P

theorem RoundTrips.mono {enc : Encoder α} {dec : Decoder ε α} {P Q : α → Prop}
    (h : RoundTrips enc dec P) (hQ : ∀ a, Q a → P a) : RoundTrips enc dec Q :=
  fun a w ha => h a w (hQ a ha)

theorem Lawful.congr {enc : Encoder α} {dec : Decoder ε α} {P Q : α → Prop}
    (h : Lawful enc dec P) (hPQ : ∀ a, P a ↔ Q a) : Lawful enc dec Q := by
  obtain rfl : P = Q := funext fun a => propext (hPQ a)
  exact h

/-- No encoding is the front of the encoding of another value. -/
theorem RoundTrips.eq_of_isPrefix {enc : Encoder α} {dec : Decoder ε α} {P : α → Prop}
    (h : RoundTrips enc dec P) {a b : α} {w w' : Written} (ha : P a) (hb : P b)
    (ea : enc a = .ok w) (eb : enc b = .ok w') (hbytes : w.bytes <+: w'.bytes) : a = b := by
  obtain ⟨rest, hrest⟩ := hbytes
  have e := h a w ha ea rest
  rw [hrest, ← List.append_nil w'.bytes, h b w' hb eb []] at e
  simp only [Outcome.ok.injEq, Prod.mk.injEq] at e
  exact e.1.symm

/-- Values with the same encoding are equal. -/
theorem RoundTrips.encode_injective {enc : Encoder α} {dec : Decoder ε α} {P : α → Prop}
    (h : RoundTrips enc dec P) {a b : α} {w w' : Written} (ha : P a) (hb : P b)
    (ea : enc a = .ok w) (eb : enc b = .ok w') (hbytes : w.bytes = w'.bytes) : a = b :=
  h.eq_of_isPrefix ha hb ea eb (hbytes ▸ List.prefix_rfl)

/-- The bytes that a value was read from, where its encoding is known. -/
theorem Canonical.eq_append {enc : Encoder α} {dec : Decoder ε α} {P : α → Prop}
    (h : Canonical enc dec P) {bs rest : Bytes} {a : α} {w : Written} (e : enc a = .ok w)
    (hr : dec.run bs = .ok (a, rest)) : bs = w.bytes ++ rest := by
  obtain ⟨-, w', e', hbs⟩ := h bs a rest hr
  rwa [Outcome.ok.inj (e.symm.trans e')]

/-- An encoded value is decoded from its encoding exactly if it is in `P`. -/
theorem Lawful.run_encoded_iff {enc : Encoder α} {dec : Decoder ε α} {P : α → Prop}
    (h : Lawful enc dec P) {a : α} {w : Written} (e : enc a = .ok w) (rest : Bytes) :
    dec.run (w.bytes ++ rest) = .ok (a, rest) ↔ P a :=
  ⟨fun hr => (h.canonical _ _ _ hr).1, fun ha => h.roundTrips a w ha e rest⟩

/-! ### One after the other -/

/-- The second value is written after the first. -/
def Encoder.seq (e₁ : Encoder α) (e₂ : Encoder β) : Encoder (α × β) := fun p => do
  let w₁ ← e₁ p.1
  let w₂ ← e₂ p.2
  return w₁ ++ w₂

/-- The second value is read after the first. -/
def Decoder.seq (d₁ : Decoder ε α) (d₂ : Decoder ε β) : Decoder ε (α × β) := do
  let a ← d₁
  let b ← d₂
  return (a, b)

theorem Encoder.seq_eq_ok_iff {e₁ : Encoder α} {e₂ : Encoder β} {p : α × β} {w : Written} :
    e₁.seq e₂ p = .ok w ↔ ∃ w₁ w₂, e₁ p.1 = .ok w₁ ∧ e₂ p.2 = .ok w₂ ∧ w = w₁ ++ w₂ :=
  Written.bind_append_eq_ok_iff

theorem Decoder.run_seq_eq_ok_iff {d₁ : Decoder ε α} {d₂ : Decoder ε β} {bs rest : Bytes} {p : α × β} :
    (d₁.seq d₂).run bs = .ok (p, rest) ↔
      ∃ mid, d₁.run bs = .ok (p.1, mid) ∧ d₂.run mid = .ok (p.2, rest) := by
  unfold Decoder.seq
  constructor
  · intro h
    obtain ⟨a, mid, ha, h⟩ := Decoder.run_bind_eq_ok_iff.1 h
    obtain ⟨b, mid', hb, h⟩ := Decoder.run_bind_eq_ok_iff.1 h
    cases h
    exact ⟨mid, ha, hb⟩
  · rintro ⟨mid, ha, hb⟩
    rw [Decoder.run_bind_of_ok ha, Decoder.run_bind_of_ok hb]
    rfl

theorem Encoder.exists_seq {e₁ : Encoder α} {e₂ : Encoder β} {p : α × β}
    (h₁ : ∃ w, e₁ p.1 = .ok w) (h₂ : ∃ w, e₂ p.2 = .ok w) : ∃ w, e₁.seq e₂ p = .ok w := by
  obtain ⟨w₁, h₁⟩ := h₁
  obtain ⟨w₂, h₂⟩ := h₂
  exact ⟨_, Encoder.seq_eq_ok_iff.2 ⟨w₁, w₂, h₁, h₂, rfl⟩⟩

theorem Counts.seq {e₁ : Encoder α} {e₂ : Encoder β} (h₁ : Counts e₁) (h₂ : Counts e₂) :
    Counts (e₁.seq e₂) := by
  intro p w h
  obtain ⟨w₁, w₂, e₁, e₂, rfl⟩ := Encoder.seq_eq_ok_iff.1 h
  simp [h₁ _ _ e₁, h₂ _ _ e₂]

theorem RoundTrips.seq {e₁ : Encoder α} {e₂ : Encoder β} {d₁ : Decoder ε α} {d₂ : Decoder ε β}
    {P : α → Prop} {Q : β → Prop} (h₁ : RoundTrips e₁ d₁ P) (h₂ : RoundTrips e₂ d₂ Q) :
    RoundTrips (e₁.seq e₂) (d₁.seq d₂) fun p => P p.1 ∧ Q p.2 := by
  rintro ⟨a, b⟩ w ⟨ha, hb⟩ h rest
  obtain ⟨w₁, w₂, e₁, e₂, rfl⟩ := Encoder.seq_eq_ok_iff.1 h
  rw [Written.bytes_append, List.append_assoc, Decoder.run_seq_eq_ok_iff]
  exact ⟨w₂.bytes ++ rest, h₁ a w₁ ha e₁ _, h₂ b w₂ hb e₂ rest⟩

theorem Canonical.seq {e₁ : Encoder α} {e₂ : Encoder β} {d₁ : Decoder ε α} {d₂ : Decoder ε β}
    {P : α → Prop} {Q : β → Prop} (h₁ : Canonical e₁ d₁ P) (h₂ : Canonical e₂ d₂ Q) :
    Canonical (e₁.seq e₂) (d₁.seq d₂) fun p => P p.1 ∧ Q p.2 := by
  rintro bs ⟨a, b⟩ rest h
  obtain ⟨mid, r₁, r₂⟩ := Decoder.run_seq_eq_ok_iff.1 h
  obtain ⟨ha, w₁, e₁, rfl⟩ := h₁ _ _ _ r₁
  obtain ⟨hb, w₂, e₂, rfl⟩ := h₂ _ _ _ r₂
  exact ⟨⟨ha, hb⟩, w₁ ++ w₂, Encoder.seq_eq_ok_iff.2 ⟨w₁, w₂, e₁, e₂, rfl⟩, by simp⟩

theorem Lawful.seq {e₁ : Encoder α} {e₂ : Encoder β} {d₁ : Decoder ε α} {d₂ : Decoder ε β}
    {P : α → Prop} {Q : β → Prop} (h₁ : Lawful e₁ d₁ P) (h₂ : Lawful e₂ d₂ Q) :
    Lawful (e₁.seq e₂) (d₁.seq d₂) fun p => P p.1 ∧ Q p.2 where
  counts := h₁.counts.seq h₂.counts
  roundTrips := h₁.roundTrips.seq h₂.roundTrips
  canonical := h₁.canonical.seq h₂.canonical

/-! ### Another representation -/

theorem Counts.comp {enc : Encoder α} (h : Counts enc) (f : β → α) : Counts fun b => enc (f b) :=
  fun b w e => h (f b) w e

/-- A value of `β` is written through its image under `f`, and `g` makes up the rest of it. -/
theorem Lawful.retract {enc : Encoder α} {dec : Decoder ε α} {P : α → Prop} (h : Lawful enc dec P)
    (f : β → α) (g : α → β) (hfg : ∀ a, P a → f (g a) = a) :
    Lawful (fun b => enc (f b)) (g <$> dec) fun b => P (f b) ∧ g (f b) = b where
  counts := h.counts.comp f
  roundTrips := by
    rintro b w ⟨hb, hgf⟩ he rest
    rw [Decoder.run_map_eq_ok_iff]
    exact ⟨f b, h.roundTrips _ w hb he rest, hgf⟩
  canonical := by
    intro bs b rest hr
    obtain ⟨a, ha, rfl⟩ := Decoder.run_map_eq_ok_iff.1 hr
    obtain ⟨hP, w, he, hw⟩ := h.canonical bs a rest ha
    have hf := hfg a hP
    refine ⟨⟨?_, ?_⟩, w, ?_, hw⟩
    · rwa [hf]
    · rw [hf]
    · exact (congrArg enc hf).trans he

theorem Lawful.xmap {enc : Encoder α} {dec : Decoder ε α} {P : α → Prop} (h : Lawful enc dec P)
    (e : β ≃ α) : Lawful (fun b => enc (e b)) (e.symm <$> dec) fun b => P (e b) :=
  (h.retract e e.symm fun a _ => e.apply_symm_apply a).congr fun b => by simp

/-! ### Values that are checked -/

/-- Decode a value and stop with an error unless it passes a check. -/
def Decoder.guard (dec : Decoder ε α) (Q : α → Prop) [DecidablePred Q] (e : α → ε) :
    Decoder ε α := do
  let a ← dec
  Decoder.ensure (Q a) (e a)
  return a

theorem Decoder.run_guard_eq_ok_iff {dec : Decoder ε α} {Q : α → Prop} [DecidablePred Q]
    {e : α → ε} {bs rest : Bytes} {a : α} :
    (dec.guard Q e).run bs = .ok (a, rest) ↔ dec.run bs = .ok (a, rest) ∧ Q a := by
  unfold Decoder.guard
  rw [Decoder.run_bind_eq_ok_iff]
  constructor
  · rintro ⟨b, mid, hb, hr⟩
    obtain ⟨hQ, hpure⟩ := Decoder.run_ensure_bind_eq_ok_iff.1 hr
    cases hpure
    exact ⟨hb, hQ⟩
  · rintro ⟨hb, hQ⟩
    exact ⟨a, rest, hb, Decoder.run_ensure_bind_of hQ⟩

theorem Lawful.guard {enc : Encoder α} {dec : Decoder ε α} {P : α → Prop} (h : Lawful enc dec P)
    (Q : α → Prop) [DecidablePred Q] (e : α → ε) :
    Lawful enc (dec.guard Q e) fun a => P a ∧ Q a where
  counts := h.counts
  roundTrips := by
    rintro a w ⟨hP, hQ⟩ he rest
    exact Decoder.run_guard_eq_ok_iff.2 ⟨h.roundTrips a w hP he rest, hQ⟩
  canonical := by
    intro bs a rest hr
    obtain ⟨hrun, hQ⟩ := Decoder.run_guard_eq_ok_iff.1 hr
    obtain ⟨hP, w, he, hw⟩ := h.canonical bs a rest hrun
    exact ⟨⟨hP, hQ⟩, w, he, hw⟩

theorem Lawful.attach {enc : Encoder α} {dec : Decoder ε α} {P Q : α → Prop}
    (h : Lawful enc dec P) (hd : ∀ bs a rest, dec.run bs = .ok (a, rest) → Q a) :
    Lawful (fun a : {a // Q a} => enc a.1) (dec.attach hd) fun a => P a.1 where
  counts := fun a w e => h.counts a.1 w e
  roundTrips := fun a w ha e rest =>
    Decoder.run_attach_eq_ok_iff.2 (h.roundTrips a.1 w ha e rest)
  canonical := fun bs a rest hr => h.canonical bs a.1 rest (Decoder.run_attach_eq_ok_iff.1 hr)

theorem Lawful.mapErr {ζ : Type} {enc : Encoder α} {dec : Decoder ε α} {P : α → Prop}
    (h : Lawful enc dec P) (f : ε → ζ) : Lawful enc (dec.mapErr f) P where
  counts := h.counts
  roundTrips := fun a w ha e rest => Decoder.run_mapErr_eq_ok_iff.2 (h.roundTrips a w ha e rest)
  canonical := fun bs a rest hr => h.canonical bs a rest (Decoder.run_mapErr_eq_ok_iff.1 hr)

/-! ### Decoders that accept more than is written -/

/-- What the decoder accepts stands in the relation `R` to the encoding of the value it returns. -/
def Loose (enc : Encoder α) (dec : Decoder ε α) (P : α → Prop) (R : Bytes → Bytes → Prop) : Prop :=
  ∀ bs a rest, dec.run bs = .ok (a, rest) →
    P a ∧ ∃ w read, enc a = .ok w ∧ bs = read ++ rest ∧ R w.bytes read

theorem Canonical.loose {enc : Encoder α} {dec : Decoder ε α} {P : α → Prop}
    (h : Canonical enc dec P) : Loose enc dec P Eq := by
  intro bs a rest hr
  obtain ⟨ha, w, e, hw⟩ := h bs a rest hr
  exact ⟨ha, w, w.bytes, e, hw, rfl⟩

/-- A field in front that is read as it is written. -/
theorem Canonical.seq_loose {e₁ : Encoder α} {e₂ : Encoder β} {d₁ : Decoder ε α} {d₂ : Decoder ε β}
    {P : α → Prop} {Q : β → Prop} {R : Bytes → Bytes → Prop} (h₁ : Canonical e₁ d₁ P)
    (h₂ : Loose e₂ d₂ Q R) (hR : ∀ u w read, R w read → R (u ++ w) (u ++ read)) :
    Loose (e₁.seq e₂) (d₁.seq d₂) (fun p => P p.1 ∧ Q p.2) R := by
  rintro bs ⟨a, b⟩ rest h
  obtain ⟨mid, r₁, r₂⟩ := Decoder.run_seq_eq_ok_iff.1 h
  obtain ⟨ha, w₁, e₁, rfl⟩ := h₁ _ _ _ r₁
  obtain ⟨hb, w₂, read, e₂, rfl, hr⟩ := h₂ _ _ _ r₂
  refine ⟨⟨ha, hb⟩, w₁ ++ w₂, w₁.bytes ++ read, ?_, by simp, hR _ _ _ hr⟩
  exact Encoder.seq_eq_ok_iff.2 ⟨w₁, w₂, e₁, e₂, rfl⟩

/-- A field behind that is read as it is written. -/
theorem Loose.seq_canonical {e₁ : Encoder α} {e₂ : Encoder β} {d₁ : Decoder ε α} {d₂ : Decoder ε β}
    {P : α → Prop} {Q : β → Prop} {R : Bytes → Bytes → Prop} (h₁ : Loose e₁ d₁ P R)
    (h₂ : Canonical e₂ d₂ Q) (hR : ∀ u w read, R w read → R (w ++ u) (read ++ u)) :
    Loose (e₁.seq e₂) (d₁.seq d₂) (fun p => P p.1 ∧ Q p.2) R := by
  rintro bs ⟨a, b⟩ rest h
  obtain ⟨mid, r₁, r₂⟩ := Decoder.run_seq_eq_ok_iff.1 h
  obtain ⟨ha, w₁, read, e₁, rfl, hr⟩ := h₁ _ _ _ r₁
  obtain ⟨hb, w₂, e₂, rfl⟩ := h₂ _ _ _ r₂
  refine ⟨⟨ha, hb⟩, w₁ ++ w₂, read ++ w₂.bytes, ?_, by simp, hR _ _ _ hr⟩
  exact Encoder.seq_eq_ok_iff.2 ⟨w₁, w₂, e₁, e₂, rfl⟩

theorem Loose.xmap {enc : Encoder α} {dec : Decoder ε α} {P : α → Prop} {R : Bytes → Bytes → Prop}
    (h : Loose enc dec P R) (e : β ≃ α) :
    Loose (fun b => enc (e b)) (e.symm <$> dec) (fun b => P (e b)) R := by
  intro bs b rest hr
  obtain ⟨a, ha, rfl⟩ := Decoder.run_map_eq_ok_iff.1 hr
  simp only [e.apply_symm_apply]
  exact h bs a rest ha

theorem RoundTrips.xmap {enc : Encoder α} {dec : Decoder ε α} {P : α → Prop}
    (h : RoundTrips enc dec P) (e : β ≃ α) :
    RoundTrips (fun b => enc (e b)) (e.symm <$> dec) fun b => P (e b) := by
  intro b w hb he rest
  rw [Decoder.run_map_eq_ok_iff]
  exact ⟨e b, h _ w hb he rest, e.symm_apply_apply b⟩

/-- For bytes `raw` that the decoder accepts, `R written raw` says that `written` is what the encoder
makes of the value, has as many bytes as `raw`, and is accepted with the same value. -/
def ReadsBack (enc : Encoder α) (dec : Decoder ε α) (R : Bytes → Bytes → Prop) : Prop :=
  ∀ raw a rest, dec.run raw = .ok (a, rest) → ∃ w, enc a = .ok w ∧ ∀ written, R written raw ↔
    written = w.bytes ∧ w.bytes.length = raw.length ∧ ∃ r, dec.run w.bytes = .ok (a, r)

/-- The bytes are accepted with nothing left over. -/
def Decoder.Consumes (dec : Decoder ε α) (bs : Bytes) : Prop := ∃ a, dec.run bs = .ok (a, [])

/-- A loose decoder that reads the right number of bytes reads a value back if nothing was left
over when it was read. -/
theorem Loose.readsBack {enc : Encoder α} {dec : Decoder ε α} {P : α → Prop}
    {R : Bytes → Bytes → Prop} (h : Loose enc dec P R) (hback : RoundTrips enc dec P)
    (hlen : ∀ w read, R w read → w.length = read.length)
    (huniq : ∀ w w' read, R w read → R w' read → w = w') :
    ReadsBack enc dec fun written raw => R written raw ∧ dec.Consumes raw := by
  intro raw a rest hr
  obtain ⟨ha, w, read, e, rfl, hR⟩ := h raw a rest hr
  refine ⟨w, e, fun written => ?_⟩
  constructor
  · rintro ⟨hwritten, b, hb⟩
    obtain ⟨rfl, rfl⟩ := Prod.mk.inj (Outcome.ok.inj (hr.symm.trans hb))
    rw [List.append_nil] at hwritten ⊢
    refine ⟨huniq _ _ _ hwritten hR, hlen _ _ hR, [], ?_⟩
    have hrun := hback a w ha e []
    rwa [List.append_nil] at hrun
  · rintro ⟨rfl, hlength, -⟩
    rw [hlen _ _ hR, List.length_append] at hlength
    obtain rfl : rest = [] := List.length_eq_zero_iff.1 (by omega)
    rw [List.append_nil] at hr ⊢
    exact ⟨hR, a, hr⟩

theorem Lawful.readsBack {enc : Encoder α} {dec : Decoder ε α} {P : α → Prop}
    (h : Lawful enc dec P) :
    ReadsBack enc dec fun written raw => written = raw ∧ dec.Consumes raw :=
  h.canonical.loose.readsBack h.roundTrips (fun _ _ => congrArg List.length)
    fun _ _ _ hw hw' => hw.trans hw'.symm

/-! ### Bounded input -/

/-- A bound that leaves what is read in sight has no effect. -/
theorem Decoder.run_limit_append {d : Decoder ε α} {n : ℕ} {w : Bytes} {a : α} (hw : w.length ≤ n)
    (h : ∀ rest, d.run (w ++ rest) = .ok (a, rest)) (rest : Bytes) :
    (d.limit n).run (w ++ rest) = .ok (a, rest) := by
  rw [Decoder.run_limit_eq_ok_iff]
  refine ⟨rest.take (n - w.length), ?_, ?_⟩
  · rw [List.take_append, List.take_of_length_le hw]
    exact h _
  · rw [List.drop_append, List.drop_of_length_le hw, List.nil_append, List.take_append_drop]

/-- What was read within a bound is in front of the whole input. -/
theorem Decoder.eq_append_of_take {n : ℕ} {bs w r : Bytes} (h : bs.take n = w ++ r) :
    w.length ≤ n ∧ bs = w ++ (r ++ bs.drop n) := by
  constructor
  · have hl := congrArg List.length h
    simp only [List.length_take, List.length_append] at hl
    omega
  · rw [← List.append_assoc, ← h, List.take_append_drop]

theorem RoundTrips.limit {enc : Encoder α} {dec : Decoder ε α} {P : α → Prop}
    (h : RoundTrips enc dec P) (n : ℕ) :
    RoundTrips enc (dec.limit n) fun a => P a ∧ Fits enc n a := by
  rintro a w ⟨ha, hn⟩ e rest
  exact Decoder.run_limit_append (hn w e) (h a w ha e) rest

theorem Canonical.limit {enc : Encoder α} {dec : Decoder ε α} {P : α → Prop}
    (h : Canonical enc dec P) (n : ℕ) :
    Canonical enc (dec.limit n) fun a => P a ∧ Fits enc n a := by
  intro bs a rest hr
  obtain ⟨r, h', rfl⟩ := Decoder.run_limit_eq_ok_iff.1 hr
  obtain ⟨ha, w, e, hw⟩ := h _ _ _ h'
  obtain ⟨hle, hbs⟩ := Decoder.eq_append_of_take hw
  refine ⟨⟨ha, ?_⟩, w, e, hbs⟩
  intro w' e'
  obtain rfl : w = w' := Outcome.ok.inj (e.symm.trans e')
  exact hle

theorem Lawful.limit {enc : Encoder α} {dec : Decoder ε α} {P : α → Prop} (h : Lawful enc dec P)
    (n : ℕ) : Lawful enc (dec.limit n) fun a => P a ∧ Fits enc n a where
  counts := h.counts
  roundTrips := h.roundTrips.limit n
  canonical := h.canonical.limit n

/-! ### Lists -/

/-- The elements are written one after the other. -/
def Encoder.list (enc : Encoder α) : Encoder (List α)
  | [] => .ok .empty
  | a :: as => do
    let w ← enc a
    let ws ← Encoder.list enc as
    return w ++ ws

theorem Encoder.list_cons_eq_ok_iff {enc : Encoder α} {a : α} {as : List α} {w : Written} :
    enc.list (a :: as) = .ok w ↔ ∃ u v, enc a = .ok u ∧ enc.list as = .ok v ∧ w = u ++ v := by
  rw [Encoder.list]
  exact Written.bind_append_eq_ok_iff

theorem Encoder.exists_list {enc : Encoder α} {as : List α} (h : ∀ a ∈ as, ∃ w, enc a = .ok w) :
    ∃ w, enc.list as = .ok w := by
  induction as with
  | nil => exact ⟨_, rfl⟩
  | cons a as ih =>
    obtain ⟨u, hu⟩ := h a List.mem_cons_self
    obtain ⟨v, hv⟩ := ih fun b hb => h b (List.mem_cons_of_mem _ hb)
    exact ⟨_, Encoder.list_cons_eq_ok_iff.2 ⟨u, v, hu, hv, rfl⟩⟩

theorem Encoder.length_list {enc : Encoder α} {k : ℕ}
    (hk : ∀ a w, enc a = .ok w → w.bytes.length = k) {as : List α} {w : Written}
    (h : enc.list as = .ok w) : w.bytes.length = k * as.length := by
  induction as generalizing w with
  | nil =>
    obtain rfl := Outcome.ok.inj h
    rfl
  | cons a as ih =>
    obtain ⟨u, v, hu, hv, rfl⟩ := Encoder.list_cons_eq_ok_iff.1 h
    rw [Written.bytes_append, List.length_append, hk a u hu, ih hv, List.length_cons, Nat.mul_add,
      Nat.mul_one, Nat.add_comm]

/-- A list has at most one element a byte when no element is written without a byte. -/
theorem Encoder.length_le_of_list {enc : Encoder α}
    (hpos : ∀ a w, enc a = .ok w → 0 < w.bytes.length) {as : List α} {w : Written}
    (h : enc.list as = .ok w) : as.length ≤ w.bytes.length := by
  induction as generalizing w with
  | nil => exact Nat.zero_le _
  | cons a as ih =>
    obtain ⟨u, v, hu, hv, rfl⟩ := Encoder.list_cons_eq_ok_iff.1 h
    have hhead := hpos a u hu
    have htail := ih hv
    rw [Written.bytes_append, List.length_append, List.length_cons]
    omega

/-- Every value is written in as many bytes as `size` says. -/
def Measures (enc : Encoder α) (size : α → ℕ) : Prop := ∀ a w, enc a = .ok w → w.bytes.length = size a

theorem Measures.congr {enc : Encoder α} {size size' : α → ℕ} (h : Measures enc size)
    (heq : ∀ a, size a = size' a) : Measures enc size' :=
  fun a w e => (h a w e).trans (heq a)

theorem Measures.comp {enc : Encoder α} {size : α → ℕ} (h : Measures enc size) (f : β → α) :
    Measures (fun b => enc (f b)) fun b => size (f b) :=
  fun b w e => h (f b) w e

theorem Measures.seq {e₁ : Encoder α} {e₂ : Encoder β} {s₁ : α → ℕ} {s₂ : β → ℕ}
    (h₁ : Measures e₁ s₁) (h₂ : Measures e₂ s₂) :
    Measures (e₁.seq e₂) fun p => s₁ p.1 + s₂ p.2 := by
  intro p w e
  obtain ⟨w₁, w₂, hw₁, hw₂, rfl⟩ := Encoder.seq_eq_ok_iff.1 e
  rw [Written.bytes_append, List.length_append, h₁ _ _ hw₁, h₂ _ _ hw₂]

theorem Measures.list {enc : Encoder α} {size : α → ℕ} (h : Measures enc size) :
    Measures enc.list fun as => (as.map size).sum := by
  intro as
  induction as with
  | nil =>
    intro w e
    obtain rfl := Outcome.ok.inj e
    rfl
  | cons a as ih =>
    intro w e
    obtain ⟨u, v, hu, hv, rfl⟩ := Encoder.list_cons_eq_ok_iff.1 e
    rw [Written.bytes_append, List.length_append, h a u hu, ih v hv]
    rfl

theorem Encoder.list_map {enc : Encoder α} {f : β → α} (bs : List β) :
    enc.list (bs.map f) = Encoder.list (fun b => enc (f b)) bs := by
  induction bs with
  | nil => rfl
  | cons b bs ih => rw [List.map_cons, Encoder.list, Encoder.list, ih]

theorem Counts.list {enc : Encoder α} (h : Counts enc) : Counts enc.list := by
  intro as
  induction as with
  | nil =>
    intro w e
    obtain rfl := Outcome.ok.inj e
    rfl
  | cons a as ih =>
    intro w e
    obtain ⟨u, v, hu, hv, rfl⟩ := Encoder.list_cons_eq_ok_iff.1 e
    simp [h a u hu, ih v hv]

theorem Decoder.run_times_succ_eq_ok_iff {d : Decoder ε α} {n : ℕ} {bs rest : Bytes} {as : List α} :
    (d.times (n + 1)).run bs = .ok (as, rest) ↔ ∃ a tail mid, as = a :: tail ∧
      d.run bs = .ok (a, mid) ∧ (d.times n).run mid = .ok (tail, rest) := by
  rw [Decoder.times]
  constructor
  · intro h
    obtain ⟨a, mid, ha, h⟩ := Decoder.run_bind_eq_ok_iff.1 h
    obtain ⟨tail, mid', htail, h⟩ := Decoder.run_bind_eq_ok_iff.1 h
    cases h
    exact ⟨a, tail, mid, rfl, ha, htail⟩
  · rintro ⟨a, tail, mid, rfl, ha, htail⟩
    rw [Decoder.run_bind_of_ok ha, Decoder.run_bind_of_ok htail]
    rfl

theorem Decoder.length_of_times {d : Decoder ε α} {n : ℕ} {bs rest : Bytes} {as : List α}
    (h : (d.times n).run bs = .ok (as, rest)) : as.length = n := by
  induction n generalizing bs as with
  | zero =>
    cases h
    rfl
  | succ n ih =>
    obtain ⟨a, tail, mid, rfl, -, htail⟩ := Decoder.run_times_succ_eq_ok_iff.1 h
    rw [List.length_cons, ih htail]

theorem Decoder.forall_of_times {d : Decoder ε α} {P : α → Prop}
    (hd : ∀ bs a rest, d.run bs = .ok (a, rest) → P a) {n : ℕ} {bs rest : Bytes} {as : List α}
    (h : (d.times n).run bs = .ok (as, rest)) : ∀ a ∈ as, P a := by
  induction n generalizing bs as with
  | zero =>
    cases h
    simp
  | succ n ih =>
    obtain ⟨a, tail, mid, rfl, ha, htail⟩ := Decoder.run_times_succ_eq_ok_iff.1 h
    exact List.forall_mem_cons.2 ⟨hd _ _ _ ha, ih htail⟩

theorem RoundTrips.times {enc : Encoder α} {dec : Decoder ε α} {P : α → Prop}
    (h : RoundTrips enc dec P) (n : ℕ) :
    RoundTrips enc.list (dec.times n) fun as => as.length = n ∧ ∀ a ∈ as, P a := by
  induction n with
  | zero =>
    rintro as w ⟨hn, -⟩ e rest
    obtain rfl := List.length_eq_zero_iff.1 hn
    obtain rfl := Outcome.ok.inj e
    rfl
  | succ n ih =>
    rintro as w ⟨hn, hP⟩ e rest
    obtain ⟨a, as, rfl⟩ := List.exists_cons_of_length_eq_add_one hn
    obtain ⟨u, v, hu, hv, rfl⟩ := Encoder.list_cons_eq_ok_iff.1 e
    have hrest := ih as v ⟨by simpa using hn, fun b hb => hP b (List.mem_cons_of_mem _ hb)⟩ hv rest
    rw [Written.bytes_append, List.append_assoc, Decoder.run_times_succ_eq_ok_iff]
    exact ⟨a, as, v.bytes ++ rest, rfl, h a u (hP a List.mem_cons_self) hu _, hrest⟩

theorem Canonical.times {enc : Encoder α} {dec : Decoder ε α} {P : α → Prop}
    (h : Canonical enc dec P) (n : ℕ) :
    Canonical enc.list (dec.times n) fun as => as.length = n ∧ ∀ a ∈ as, P a := by
  induction n with
  | zero =>
    intro bs as rest hr
    simp only [Decoder.times, Decoder.run_pure_eq, Outcome.ok.injEq, Prod.mk.injEq] at hr
    obtain ⟨rfl, rfl⟩ := hr
    exact ⟨⟨rfl, by simp⟩, .empty, rfl, rfl⟩
  | succ n ih =>
    intro bs as rest hr
    obtain ⟨a, as', mid, rfl, hr₁, hr₂⟩ := Decoder.run_times_succ_eq_ok_iff.1 hr
    obtain ⟨ha, u, hu, rfl⟩ := h _ _ _ hr₁
    obtain ⟨⟨hn, has⟩, v, hv, rfl⟩ := ih _ _ _ hr₂
    refine ⟨⟨by simp [hn], ?_⟩, u ++ v, Encoder.list_cons_eq_ok_iff.2 ⟨u, v, hu, hv, rfl⟩, by simp⟩
    intro b hb
    rcases List.mem_cons.1 hb with rfl | hb
    · exact ha
    · exact has b hb

theorem Lawful.times {enc : Encoder α} {dec : Decoder ε α} {P : α → Prop} (h : Lawful enc dec P)
    (n : ℕ) : Lawful enc.list (dec.times n) fun as => as.length = n ∧ ∀ a ∈ as, P a where
  counts := h.counts.list
  roundTrips := h.roundTrips.times n
  canonical := h.canonical.times n

/-- A list with its length, written by `encLen`, in front. -/
def Encoder.counted (encLen : Encoder ℕ) (enc : Encoder α) : Encoder (List α) := fun as => do
  let n ← encLen as.length
  let ws ← enc.list as
  return n ++ ws

/-- Read a length, then that many values. -/
def Decoder.counted (decLen : Decoder ε ℕ) (dec : Decoder ε α) : Decoder ε (List α) := do
  let n ← decLen
  dec.times n

theorem Encoder.counted_eq_ok_iff {encLen : Encoder ℕ} {enc : Encoder α} {as : List α}
    {w : Written} : encLen.counted enc as = .ok w ↔
      ∃ u v, encLen as.length = .ok u ∧ enc.list as = .ok v ∧ w = u ++ v :=
  Written.bind_append_eq_ok_iff

theorem Encoder.exists_counted {encLen : Encoder ℕ} {enc : Encoder α} {as : List α}
    (hl : ∃ w, encLen as.length = .ok w) (h : ∀ a ∈ as, ∃ w, enc a = .ok w) :
    ∃ w, encLen.counted enc as = .ok w := by
  obtain ⟨u, hu⟩ := hl
  obtain ⟨v, hv⟩ := Encoder.exists_list h
  exact ⟨_, Encoder.counted_eq_ok_iff.2 ⟨u, v, hu, hv, rfl⟩⟩

theorem Measures.counted {encLen : Encoder ℕ} {enc : Encoder α} {lenSize : ℕ → ℕ} {size : α → ℕ}
    (hl : Measures encLen lenSize) (h : Measures enc size) :
    Measures (encLen.counted enc) fun as => lenSize as.length + (as.map size).sum := by
  intro as w e
  obtain ⟨u, v, hu, hv, rfl⟩ := Encoder.counted_eq_ok_iff.1 e
  rw [Written.bytes_append, List.length_append, hl _ _ hu, h.list _ _ hv]

theorem Counts.counted {encLen : Encoder ℕ} {enc : Encoder α} (hl : Counts encLen)
    (h : Counts enc) : Counts (encLen.counted enc) := by
  intro as w e
  obtain ⟨u, v, hu, hv, rfl⟩ := Encoder.counted_eq_ok_iff.1 e
  simp [hl _ _ hu, h.list _ _ hv]

theorem RoundTrips.counted {encLen : Encoder ℕ} {decLen : Decoder ε ℕ} {enc : Encoder α}
    {dec : Decoder ε α} {L : ℕ → Prop} {P : α → Prop} (hl : RoundTrips encLen decLen L)
    (h : RoundTrips enc dec P) :
    RoundTrips (encLen.counted enc) (decLen.counted dec) fun as => L as.length ∧ ∀ a ∈ as, P a := by
  rintro as w ⟨hL, hP⟩ e rest
  obtain ⟨u, v, hu, hv, rfl⟩ := Encoder.counted_eq_ok_iff.1 e
  unfold Decoder.counted
  rw [Written.bytes_append, List.append_assoc, Decoder.run_bind_of_ok (hl _ u hL hu _)]
  exact h.times as.length as v ⟨rfl, hP⟩ hv rest

theorem Canonical.counted {encLen : Encoder ℕ} {decLen : Decoder ε ℕ} {enc : Encoder α}
    {dec : Decoder ε α} {L : ℕ → Prop} {P : α → Prop} (hl : Canonical encLen decLen L)
    (h : Canonical enc dec P) :
    Canonical (encLen.counted enc) (decLen.counted dec) fun as => L as.length ∧ ∀ a ∈ as, P a := by
  intro bs as rest hr
  unfold Decoder.counted at hr
  obtain ⟨n, mid, hr₁, hr₂⟩ := Decoder.run_bind_eq_ok_iff.1 hr
  obtain ⟨hL, u, hu, rfl⟩ := hl _ _ _ hr₁
  obtain ⟨⟨rfl, hP⟩, v, hv, rfl⟩ := h.times n _ _ _ hr₂
  exact ⟨⟨hL, hP⟩, u ++ v, Encoder.counted_eq_ok_iff.2 ⟨u, v, hu, hv, rfl⟩, by simp⟩

theorem Lawful.counted {encLen : Encoder ℕ} {decLen : Decoder ε ℕ} {enc : Encoder α}
    {dec : Decoder ε α} {L : ℕ → Prop} {P : α → Prop} (hl : Lawful encLen decLen L)
    (h : Lawful enc dec P) :
    Lawful (encLen.counted enc) (decLen.counted dec) fun as => L as.length ∧ ∀ a ∈ as, P a where
  counts := hl.counts.counted h.counts
  roundTrips := hl.roundTrips.counted h.roundTrips
  canonical := hl.canonical.counted h.canonical

end Laws
