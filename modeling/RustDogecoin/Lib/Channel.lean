import Mathlib.Logic.Relation
import RustDogecoin.Lib.Stable

/-!
# Values over a byte stream

A sender writes values one after the other to a stream, which delivers its bytes in order and in pieces of any
size.  The receiver decodes a value as soon as the bytes it has are enough for one.  If the decoder inverts what is
sent and is stable, then under every interleaving of these steps the values that were received are the first that
were sent (`received_isPrefix`), the decoder waits for more bytes or returns a value (`waits_or_returns`), and
nothing is missing once everything is delivered and decoded (`received_eq_sent`).
-/

namespace Channel

variable {ε α : Type}

/-- The values that were sent, the bytes on their way and those that were delivered, and the values that were
received. -/
structure State (α : Type) where
  sent : List α
  wire : Bytes
  buffer : Bytes
  received : List α

/-- Nothing is sent. -/
def State.init : State α := ⟨[], [], [], []⟩

/-- One step of the sender, the stream or the receiver. -/
inductive Step (Sendable : α → Bytes → Prop) (d : Decoder ε α) : State α → State α → Prop
  | send {s : State α} {a : α} {w : Bytes} (h : Sendable a w) :
    Step Sendable d s { s with sent := s.sent ++ [a], wire := s.wire ++ w }
  | deliver (s : State α) (n : ℕ) :
    Step Sendable d s { s with wire := s.wire.drop n, buffer := s.buffer ++ s.wire.take n }
  | receive {s : State α} {a : α} {rest : Bytes} (h : d.run s.buffer = .ok (a, rest)) :
    Step Sendable d s { s with buffer := rest, received := s.received ++ [a] }

/-- The states that any interleaving of steps leads to. -/
def Reachable (Sendable : α → Bytes → Prop) (d : Decoder ε α) : State α → Prop :=
  Relation.ReflTransGen (Step Sendable d) .init

/-- What is sent is not empty, and the decoder reads it whatever follows. -/
def Decodes (Sendable : α → Bytes → Prop) (d : Decoder ε α) : Prop :=
  ∀ a w, Sendable a w → w ≠ [] ∧ ∀ rest, d.run (w ++ rest) = .ok (a, rest)

/-- The values that were not received yet are the ones whose encodings are on their way or delivered. -/
def Inv (Sendable : α → Bytes → Prop) (s : State α) : Prop :=
  ∃ pending : List (α × Bytes), (∀ p ∈ pending, Sendable p.1 p.2) ∧ s.sent = s.received ++ pending.map Prod.fst ∧
    s.buffer ++ s.wire = (pending.map Prod.snd).flatten

variable {Sendable : α → Bytes → Prop} {d : Decoder ε α} {eof : ε} {s s' : State α}

/-- With fewer bytes than an encoding has, the decoder is at the end of the input. -/
theorem run_of_isPrefix (hd : d.Stable eof) {bs more : Bytes} {a : α} (h : d.run (bs ++ more) = .ok (a, []))
    (hmore : more ≠ []) : d.run bs = .err eof := by
  rcases hd.cases bs more with heof | ⟨e, -, hrun⟩ | ⟨a', rest, -, hrun⟩
  · exact heof
  · cases hrun.symm.trans h
  · have hrest := congrArg Prod.snd (Outcome.ok.inj (hrun.symm.trans h))
    exact absurd (List.append_eq_nil_iff.1 hrest).2 hmore

/-- The decoder on what was delivered, if the first of the pending values is `a`. -/
theorem run_buffer (hd : d.Stable eof) (hdec : Decodes Sendable d) {buffer wire w rest : Bytes} {a : α}
    (ha : Sendable a w) (h : buffer ++ wire = w ++ rest) :
    d.run buffer = .err eof ∨ ∃ tail, buffer = w ++ tail ∧ rest = tail ++ wire ∧ d.run buffer = .ok (a, tail) := by
  obtain ⟨-, hrun⟩ := hdec a w ha
  rcases List.append_eq_append_iff.1 h with ⟨tail, hw, hwire⟩ | ⟨tail, hbuffer, hrest⟩
  · by_cases htail : tail = []
    · rw [htail, List.append_nil] at hw
      rw [htail, List.nil_append] at hwire
      refine Or.inr ⟨[], by rw [hw, List.append_nil], by rw [hwire, List.nil_append], ?_⟩
      rw [← hw, ← List.append_nil w, hrun]
    · have hall : d.run (buffer ++ tail) = .ok (a, []) := by rw [← hw, ← List.append_nil w, hrun]
      exact Or.inl (run_of_isPrefix hd hall htail)
  · exact Or.inr ⟨tail, hbuffer, hrest, by rw [hbuffer, hrun]⟩

theorem inv_init : Inv Sendable (State.init : State α) := ⟨[], by simp, rfl, rfl⟩

theorem inv_step (hd : d.Stable eof) (hnil : d.run [] = .err eof) (hdec : Decodes Sendable d) (hs : Inv Sendable s)
    (h : Step Sendable d s s') : Inv Sendable s' := by
  obtain ⟨pending, hpending, hsent, hbytes⟩ := hs
  cases h with
  | @send a w ha =>
    refine ⟨pending ++ [(a, w)], ?_, ?_, ?_⟩
    · intro p hp
      rcases List.mem_append.1 hp with hp | hp
      · exact hpending p hp
      · obtain rfl := List.mem_singleton.1 hp
        exact ha
    · simp [hsent]
    · rw [← List.append_assoc, hbytes]
      simp
  | deliver n => exact ⟨pending, hpending, hsent, by rw [List.append_assoc, List.take_append_drop, hbytes]⟩
  | receive hrun =>
    cases pending with
    | nil =>
      -- there is nothing to decode
      obtain ⟨hbuffer, -⟩ := List.append_eq_nil_iff.1 hbytes
      rw [hbuffer, hnil] at hrun
      cases hrun
    | cons p pending =>
      obtain ⟨hp, hpending⟩ := List.forall_mem_cons.1 hpending
      rcases run_buffer hd hdec hp hbytes with heof | ⟨tail, -, hrest, hok⟩
      · cases heof.symm.trans hrun
      · cases hok.symm.trans hrun
        exact ⟨pending, hpending, by simp [hsent], hrest.symm⟩

/-- The invariant holds under every interleaving. -/
theorem Reachable.inv (hd : d.Stable eof) (hnil : d.run [] = .err eof) (hdec : Decodes Sendable d)
    (h : Reachable Sendable d s) : Inv Sendable s := by
  induction h with
  | refl => exact inv_init
  | tail _ hstep ih => exact inv_step hd hnil hdec ih hstep

/-- Nothing is lost, repeated, altered or out of order. -/
theorem Inv.received_isPrefix (h : Inv Sendable s) : s.received <+: s.sent := by
  obtain ⟨pending, -, hsent, -⟩ := h
  exact ⟨_, hsent.symm⟩

/-- The receiver never stops with an error. -/
theorem Inv.waits_or_returns (hd : d.Stable eof) (hnil : d.run [] = .err eof) (hdec : Decodes Sendable d)
    (h : Inv Sendable s) : d.run s.buffer = .err eof ∨ ∃ a rest, d.run s.buffer = .ok (a, rest) := by
  obtain ⟨pending, hpending, -, hbytes⟩ := h
  cases pending with
  | nil =>
    obtain ⟨hbuffer, -⟩ := List.append_eq_nil_iff.1 hbytes
    exact Or.inl (by rw [hbuffer, hnil])
  | cons p pending =>
    rcases run_buffer hd hdec (hpending p List.mem_cons_self) hbytes with heof | ⟨tail, -, -, hok⟩
    · exact Or.inl heof
    · exact Or.inr ⟨_, _, hok⟩

/-- Once everything is delivered and nothing more can be decoded, everything is received. -/
theorem Inv.received_eq_sent (hdec : Decodes Sendable d) (h : Inv Sendable s) (hwire : s.wire = [])
    (hstop : d.run s.buffer = .err eof) : s.received = s.sent := by
  obtain ⟨pending, hpending, hsent, hbytes⟩ := h
  cases pending with
  | nil => rw [hsent, List.map_nil, List.append_nil]
  | cons p pending =>
    obtain ⟨-, hrun⟩ := hdec p.1 p.2 (hpending p List.mem_cons_self)
    rw [hwire, List.append_nil, List.map_cons, List.flatten_cons] at hbytes
    rw [hbytes, hrun] at hstop
    cases hstop

end Channel
