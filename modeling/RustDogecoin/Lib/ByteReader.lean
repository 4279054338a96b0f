import Mathlib.Data.List.Infix
import RustDogecoin.Lib.Outcome
import RustDogecoin.Lib.Bytes

/-!
# Readers of bytes

A `ByteReader` is asked for a number of bytes and answers with some, or with an error; a `BufReader` also shows what
it has at hand and lets go of it.  `ByteReader.Delivers` and `BufReader.Lawful` say what is asked of one, by a
relation of its states to the bytes that it has still to give out.  However the calls of a lawful reader are mixed, the
bytes come in order (`BufReader.Session.Inv.run`), as long as no more is consumed than was shown and not yet taken.
-/

/-- A reader with the states `σ`, asked for at most a number of bytes; nothing says yet that it keeps to the number
or does not panic. -/
structure ByteReader (κ σ : Type) where
  read : ℕ → σ → Outcome κ Bytes × σ

/-- A reader that shows the bytes at hand, and consumes of them. -/
structure BufReader (κ σ : Type) extends ByteReader κ σ where
  fillBuf : σ → Outcome κ Bytes × σ
  consume : ℕ → σ → Outcome Empty σ

variable {κ σ : Type}

/-- In states that `R` relates to bytes and a number, the reader gives these bytes out from the front, nothing only at
their end, and is interrupted at most that often. -/
def ByteReader.Delivers (r : ByteReader κ σ) (interrupted : κ → Prop) (R : σ → Bytes → ℕ → Prop) : Prop :=
  ∀ n s bs k, R s bs k →
    (∃ p rest s', r.read n s = (.ok p, s') ∧ bs = p ++ rest ∧ p.length ≤ n ∧ (p = [] → n = 0 ∨ bs = []) ∧
        R s' rest k) ∨
      ∃ e k' s', r.read n s = (.err e, s') ∧ interrupted e ∧ k' < k ∧ R s' bs k'

namespace BufReader

/-- In states that `R` relates to bytes and a number, the reader gives these bytes out, shows some of them, nothing
only at their end, and can consume as many as the number says; an error changes neither. -/
structure Lawful (r : BufReader κ σ) (R : σ → Bytes → ℕ → Prop) : Prop where
  read : ∀ n s bs a, R s bs a →
    (∃ p rest s', r.read n s = (.ok p, s') ∧ bs = p ++ rest ∧ p.length ≤ n ∧ (p = [] → n = 0 ∨ bs = []) ∧
        R s' rest (a - p.length)) ∨
      ∃ e s', r.read n s = (.err e, s') ∧ R s' bs a
  fillBuf : ∀ s bs a, R s bs a →
    (∃ p rest s', r.fillBuf s = (.ok p, s') ∧ bs = p ++ rest ∧ (p = [] → bs = []) ∧ R s' bs p.length) ∨
      ∃ e s', r.fillBuf s = (.err e, s') ∧ R s' bs a
  consume : ∀ k s bs a, R s bs a → k ≤ a →
    ∃ s', r.consume k s = .ok s' ∧ k ≤ bs.length ∧ R s' (bs.drop k) (a - k)

/-! ## Mixed calls -/

inductive Call where
  | read (n : ℕ)
  | fillBuf
  | consume (k : ℕ)
  deriving DecidableEq, Repr

/-- How much a call consumes of what was shown. -/
def Call.amount : Call → ℕ
  | consume k => k
  | _ => 0

/-- A reader in use: the length of the slice it showed last, what is left of that slice, and the bytes that were given
out so far. -/
structure Session (σ : Type) where
  state : σ
  shown : ℕ
  view : Bytes
  delivered : Bytes
  deriving DecidableEq, Repr

namespace Session

def start (s : σ) : Session σ := ⟨s, 0, [], []⟩

/-- A call; what is consumed of the slice is given out, and so is what is read. -/
def step (r : BufReader κ σ) (c : Session σ) : Call → Outcome Empty (Session σ)
  | .read n =>
    match r.read n c.state with
    | (.ok p, s) => .ok { c with state := s, view := c.view.drop p.length, delivered := c.delivered ++ p }
    | (.err _, s) => .ok { c with state := s }
    | (.panic q, _) => .panic q
  | .fillBuf =>
    match r.fillBuf c.state with
    | (.ok p, s) => .ok { c with state := s, shown := p.length, view := p }
    | (.err _, s) => .ok { c with state := s }
    | (.panic q, _) => .panic q
  | .consume k => do
    let s ← r.consume k c.state
    return { c with state := s, view := c.view.drop k, delivered := c.delivered ++ c.view.take k }

def run (r : BufReader κ σ) (c : Session σ) (calls : List Call) : Outcome Empty (Session σ) :=
  calls.foldlM (step r) c

/-- No call consumes more than `bound` allows where it is made. -/
def Within (r : BufReader κ σ) (bound : Session σ → ℕ) : Session σ → List Call → Prop
  | _, [] => True
  | c, call :: calls =>
    call.amount ≤ bound c ∧ ∀ c', step r c call = .ok c' → Within r bound c' calls

instance decidableWithin (r : BufReader κ σ) (bound : Session σ → ℕ) :
    ∀ (c : Session σ) (calls : List Call), Decidable (Within r bound c calls)
  | _, [] => isTrue trivial
  | c, call :: calls =>
    match h : step r c call with
    | .ok c' =>
      have := decidableWithin r bound c' calls
      decidable_of_iff (call.amount ≤ bound c ∧ Within r bound c' calls) (by simp [Within, h])
    | .err e => e.elim
    | .panic q => decidable_of_iff (call.amount ≤ bound c) (by simp [Within, h])

/-- What was given out and what the reader still has are together the bytes, and what is left of the slice is next. -/
def Inv (R : σ → Bytes → ℕ → Prop) (bs : Bytes) (c : Session σ) : Prop :=
  ∃ rest, bs = c.delivered ++ rest ∧ c.view <+: rest ∧ R c.state rest c.view.length

variable {r : BufReader κ σ} {R : σ → Bytes → ℕ → Prop} {bs : Bytes} {c : Session σ}

/-- No call loses or repeats a byte, or panics. -/
theorem Inv.step (hr : r.Lawful R) (hinv : Inv R bs c) (call : Call)
    (hcall : call.amount ≤ c.view.length) : ∃ c', step r c call = .ok c' ∧ Inv R bs c' := by
  obtain ⟨rest, hbs, hview, hstate⟩ := hinv
  cases call with
  | read n =>
    obtain ⟨p, rest', s', hread, hp, -, -, hs'⟩ | ⟨e, s', hread, hs'⟩ := hr.read n _ _ _ hstate
    · refine ⟨{ c with state := s', view := c.view.drop p.length, delivered := c.delivered ++ p }, ?_, rest', ?_, ?_,
        ?_⟩
      · rw [Session.step, hread]
      · rw [hbs, hp, List.append_assoc]
      · have hdrop := List.IsPrefix.drop hview p.length
        rwa [hp, List.drop_left] at hdrop
      · rwa [List.length_drop]
    · refine ⟨{ c with state := s' }, ?_, rest, hbs, hview, hs'⟩
      rw [Session.step, hread]
  | fillBuf =>
    obtain ⟨p, rest', s', hfill, hp, -, hs'⟩ | ⟨e, s', hfill, hs'⟩ := hr.fillBuf _ _ _ hstate
    · refine ⟨{ c with state := s', shown := p.length, view := p }, ?_, rest, hbs, ⟨rest', hp.symm⟩, hs'⟩
      rw [Session.step, hfill]
    · refine ⟨{ c with state := s' }, ?_, rest, hbs, hview, hs'⟩
      rw [Session.step, hfill]
  | consume k =>
    have hk : k ≤ c.view.length := hcall
    obtain ⟨s', hconsume, -, hs'⟩ := hr.consume k _ _ _ hstate hk
    refine ⟨{ c with state := s', view := c.view.drop k, delivered := c.delivered ++ c.view.take k }, ?_, rest.drop k,
      ?_, List.IsPrefix.drop hview k, ?_⟩
    · rw [Session.step, hconsume]
      rfl
    · have htake : c.view.take k = rest.take k := by
        obtain ⟨more, hmore⟩ := hview
        rw [← hmore, List.take_append_of_le_length hk]
      rw [hbs, htake, List.append_assoc, List.take_append_drop]
    · rwa [List.length_drop]

/-- However the calls are mixed, the bytes come in order. -/
theorem Inv.run (hr : r.Lawful R) (hinv : Inv R bs c) {calls : List Call}
    (hcalls : Within r (fun c => c.view.length) c calls) : ∃ c', run r c calls = .ok c' ∧ Inv R bs c' := by
  induction calls generalizing c with
  | nil => exact ⟨c, rfl, hinv⟩
  | cons call calls ih =>
    obtain ⟨hcall, hrest⟩ := hcalls
    obtain ⟨c', hstep, hinv'⟩ := hinv.step hr call hcall
    obtain ⟨c'', hrun, hinv''⟩ := ih hinv' (hrest c' hstep)
    refine ⟨c'', ?_, hinv''⟩
    rw [Session.run, List.foldlM_cons, hstep, Outcome.ok_bind]
    exact hrun

end Session

end BufReader

/-! ## A reader that is told what to do -/

/-- What a reader comes upon: an interruption, or a piece of the bytes. -/
inductive ReadEvent where
  | interrupted
  | piece (p : {p : Bytes // p ≠ []})

namespace ReadEvent

def bytes : ReadEvent → Bytes
  | interrupted => []
  | piece p => p.1

/-- Of a piece that is too long for a call the rest is left for the next one. -/
def read (error : κ) (n : ℕ) : List ReadEvent → Outcome κ Bytes × List ReadEvent
  | [] => (.ok [], [])
  | interrupted :: events => (.err error, events)
  | piece p :: events =>
    if h : n < p.1.length then
      (.ok (p.1.take n), piece ⟨p.1.drop n, by simpa using h⟩ :: events)
    else (.ok p.1, events)

def fillBuf (error : κ) : List ReadEvent → Outcome κ Bytes × List ReadEvent
  | [] => (.ok [], [])
  | interrupted :: events => (.err error, events)
  | piece p :: events => (.ok p.1, piece p :: events)

def consume (k : ℕ) : List ReadEvent → Outcome Empty (List ReadEvent)
  | piece p :: events =>
    if h : k < p.1.length then .ok (piece ⟨p.1.drop k, by simpa using h⟩ :: events)
    else if k = p.1.length then .ok events
    else .panic .outOfBounds
  | events => if k = 0 then .ok events else .panic .outOfBounds

/-- The reader of the given events; `error` is its report of an interruption. -/
def reader (error : κ) : BufReader κ (List ReadEvent) := ⟨⟨read error⟩, fillBuf error, consume⟩

def interruptions (events : List ReadEvent) : ℕ := events.countP fun | interrupted => true | piece _ => false

/-- The length of the first piece, if that is next. -/
def atHand (events : List ReadEvent) : ℕ := (events.head?.map bytes).elim 0 List.length

/-- The bytes of the pieces, and the number of interruptions. -/
def Gives (events : List ReadEvent) (bs : Bytes) (k : ℕ) : Prop :=
  bs = events.flatMap bytes ∧ k = interruptions events

/-- The bytes of the pieces, of which those of the first one are at hand. -/
def Shows (events : List ReadEvent) (bs : Bytes) (a : ℕ) : Prop := bs = events.flatMap bytes ∧ a ≤ atHand events

variable {error : κ}

/-- A read gives the front of a piece and leaves the rest of it. -/
theorem read_piece (error : κ) (n : ℕ) (p : {p : Bytes // p ≠ []}) (events : List ReadEvent) :
    ∃ q rest events', read error n (piece p :: events) = (.ok q, events') ∧ p.1 = q ++ rest ∧ q.length ≤ n ∧
      (q = [] → n = 0) ∧ rest ++ events.flatMap bytes = events'.flatMap bytes ∧
      interruptions (piece p :: events) = interruptions events' ∧ rest.length ≤ atHand events' := by
  by_cases h : n < p.1.length
  · refine ⟨p.1.take n, p.1.drop n, piece ⟨p.1.drop n, by simpa using h⟩ :: events, dif_pos h,
      (List.take_append_drop n p.1).symm, List.length_take_le n p.1, ?_, rfl, rfl, Nat.le_refl _⟩
    intro hq
    exact (List.take_eq_nil_iff.mp hq).resolve_right p.2
  · exact ⟨p.1, [], events, dif_neg h, (List.append_nil _).symm, Nat.le_of_not_lt h, fun hq => absurd hq p.2, rfl,
      rfl, Nat.zero_le _⟩

theorem delivers {interrupted : κ → Prop} (herror : interrupted error) :
    (reader error).toByteReader.Delivers interrupted Gives := by
  rintro n events bs k ⟨rfl, rfl⟩
  cases events with
  | nil => exact .inl ⟨[], [], [], rfl, rfl, Nat.zero_le n, fun _ => .inr rfl, rfl, rfl⟩
  | cons event events =>
    cases event with
    | interrupted =>
      refine .inr ⟨error, interruptions events, events, rfl, herror, ?_, rfl, rfl⟩
      rw [interruptions, interruptions, List.countP_cons_of_pos rfl]
      exact Nat.lt_succ_self _
    | piece p =>
      obtain ⟨q, rest, events', hread, hp, hq, hnil, hrest, hcount, -⟩ := read_piece error n p events
      refine .inl ⟨q, rest ++ events.flatMap bytes, events', hread, ?_, hq, fun h => .inl (hnil h), hrest, hcount⟩
      rw [List.flatMap_cons, bytes, hp, List.append_assoc]

theorem lawful (error : κ) : (reader error).Lawful Shows where
  read := by
    rintro n events bs a ⟨rfl, ha⟩
    cases events with
    | nil => exact .inl ⟨[], [], [], rfl, rfl, Nat.zero_le n, fun _ => .inr rfl, rfl, Nat.sub_le_of_le_add ha⟩
    | cons event events =>
      cases event with
      | interrupted => exact .inr ⟨error, events, rfl, rfl, ha.trans (Nat.zero_le _)⟩
      | piece p =>
        obtain ⟨q, rest, events', hread, hp, hq, hnil, hrest, -, hhand⟩ := read_piece error n p events
        refine .inl ⟨q, rest ++ events.flatMap bytes, events', hread, ?_, hq, fun h => .inl (hnil h), hrest, ?_⟩
        · rw [List.flatMap_cons, bytes, hp, List.append_assoc]
        · have hap : a ≤ p.1.length := ha
          have hlen : p.1.length = q.length + rest.length := by rw [hp, List.length_append]
          omega
  fillBuf := by
    rintro events bs a ⟨rfl, ha⟩
    cases events with
    | nil => exact .inl ⟨[], [], [], rfl, rfl, fun _ => rfl, rfl, Nat.le_refl 0⟩
    | cons event events =>
      cases event with
      | interrupted => exact .inr ⟨error, events, rfl, rfl, ha.trans (Nat.zero_le _)⟩
      | piece p =>
        exact .inl ⟨p.1, events.flatMap bytes, piece p :: events, rfl, rfl, fun h => absurd h p.2, rfl, Nat.le_refl _⟩
  consume := by
    rintro k events bs a ⟨rfl, ha⟩ hk
    have hle := hk.trans ha
    cases events with
    | nil =>
      obtain rfl : k = 0 := Nat.le_zero.mp hle
      exact ⟨[], rfl, Nat.le_refl 0, rfl, Nat.sub_le_of_le_add ha⟩
    | cons event events =>
      cases event with
      | interrupted =>
        obtain rfl : k = 0 := Nat.le_zero.mp hle
        exact ⟨interrupted :: events, rfl, Nat.zero_le _, rfl, ha⟩
      | piece p =>
        have hkp : k ≤ p.1.length := hle
        have hap : a ≤ p.1.length := ha
        have hlen : k ≤ ((piece p :: events).flatMap bytes).length := by
          rw [List.flatMap_cons, bytes, List.length_append]
          omega
        have hdrop : ((piece p :: events).flatMap bytes).drop k = p.1.drop k ++ events.flatMap bytes := by
          rw [List.flatMap_cons, bytes, List.drop_append_of_le_length hkp]
        rcases Nat.lt_or_eq_of_le hkp with hlt | heq
        · refine ⟨piece ⟨p.1.drop k, by simpa using hlt⟩ :: events, dif_pos hlt, hlen, hdrop, ?_⟩
          change a - k ≤ (p.1.drop k).length
          rw [List.length_drop]
          exact Nat.sub_le_sub_right hap k
        · refine ⟨events, ?_, hlen, ?_, ?_⟩
          · change consume k (piece p :: events) = _
            rw [consume, dif_neg heq.not_lt, if_pos heq]
          · rw [hdrop, List.drop_of_length_le heq.ge, List.nil_append]
          · rw [Nat.sub_eq_zero_of_le (hap.trans heq.ge)]
            exact Nat.zero_le _

end ReadEvent
