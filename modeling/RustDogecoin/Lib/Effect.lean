import RustDogecoin.Lib.Codec

/-!
# Computations that write and change a state

`Emit ε α` is a run that writes bytes and then returns, fails or panics; what was written before a failure
stays written.  `Effect σ ε α` is a computation that also reads and changes a state in place, and leaves the
changes when it fails.

`Effect.Realizes I m t` says that, from every state with the invariant `I`, the computation `m` does what `t`
does and keeps the invariant: nothing of the state beyond `I` can be seen in what is written or returned.
There is one rule for each construct.  The rule for `memo`, a cell that is filled when it is first read, is
that of the computation that fills it, provided a full cell holds what this computation returns.

`Effect.Ensures I m P` says less: how `m` ends is in `P`, and the invariant is kept.  `Effect.Safe I m` is the
case that `m` does not panic.  `Effect.Yields m Q` is about the returned values alone.
-/

/-- Two loops are the same if their turns agree on the items. -/
theorem List.foldlM_congr_mem {m : Type → Type} [Monad m] {α β : Type} {f g : β → α → m β} {l : List α}
    (h : ∀ b, ∀ a ∈ l, f b a = g b a) (b : β) : l.foldlM f b = l.foldlM g b := by
  induction l generalizing b with
  | nil => rfl
  | cons a l ih =>
    rw [List.foldlM_cons, List.foldlM_cons, h b a List.mem_cons_self]
    exact congrArg _ (funext fun b' => ih (fun b a ha => h b a (List.mem_cons_of_mem _ ha)) b')

/-- A run that writes. -/
structure Emit (ε α : Type) where
  written : Bytes
  outcome : Outcome ε α

namespace Emit

variable {ε ζ α β : Type}

protected def bind (m : Emit ε α) (f : α → Emit ε β) : Emit ε β :=
  match m.outcome with
  | .ok a => ⟨m.written ++ (f a).written, (f a).outcome⟩
  | .err e => ⟨m.written, .err e⟩
  | .panic p => ⟨m.written, .panic p⟩

instance : Monad (Emit ε) where
  pure a := ⟨[], .ok a⟩
  bind := Emit.bind

/-- A run that writes nothing. -/
def ofOutcome (x : Outcome ε α) : Emit ε α := ⟨[], x⟩

/-- Write the bytes of an encoder. -/
def encode (x : Outcome Empty Written) : Emit ε Unit :=
  match x with
  | .ok w => ⟨w.bytes, .ok ()⟩
  | .panic p => ⟨[], .panic p⟩

/-- The error of a failed run, translated. -/
def mapErr (f : ε → ζ) (m : Emit ε α) : Emit ζ α := ⟨m.written, m.outcome.mapErr f⟩

/-- Run with a writer of its own, and return what was written there. -/
def collect (m : Emit ε Unit) : Outcome ε Bytes := (fun _ => m.written) <$> m.outcome

theorem mk_ok_bind (bs : Bytes) (a : α) (f : α → Emit ε β) :
    ((⟨bs, .ok a⟩ : Emit ε α) >>= f) = ⟨bs ++ (f a).written, (f a).outcome⟩ := rfl

theorem mk_err_bind (bs : Bytes) (e : ε) (f : α → Emit ε β) :
    ((⟨bs, .err e⟩ : Emit ε α) >>= f) = ⟨bs, .err e⟩ := rfl

theorem bind_eq_ok_iff {m : Emit ε α} {f : α → Emit ε β} {bs : Bytes} {b : β} :
    (m >>= f) = ⟨bs, .ok b⟩ ↔
      ∃ u a v, m = ⟨u, .ok a⟩ ∧ f a = ⟨v, .ok b⟩ ∧ bs = u ++ v := by
  obtain ⟨u, x⟩ := m
  cases x with
  | ok a =>
    rw [mk_ok_bind]
    constructor
    · intro h
      cases hf : f a with
      | mk v y =>
        rw [hf] at h
        simp only [mk.injEq] at h
        exact ⟨u, a, v, rfl, by rw [hf, h.2], h.1.symm⟩
    · rintro ⟨u', a', v, h, hf, rfl⟩
      cases h
      rw [hf]
  | err e =>
    apply iff_of_false
    · rw [mk_err_bind]
      intro h
      cases h
    · rintro ⟨_, _, _, h, -⟩
      cases h
  | panic p =>
    apply iff_of_false
    · intro h
      cases h
    · rintro ⟨_, _, _, h, -⟩
      cases h

theorem encode_eq_ok_iff {x : Outcome Empty Written} {bs : Bytes} {u : Unit} :
    (encode x : Emit ε Unit) = ⟨bs, .ok u⟩ ↔ ∃ w, x = .ok w ∧ bs = w.bytes := by
  cases x with
  | ok w => simp [encode, eq_comm]
  | err e => exact e.elim
  | panic p => simp [encode]

theorem ofOutcome_eq_ok_iff {x : Outcome ε α} {bs : Bytes} {a : α} :
    ofOutcome x = ⟨bs, .ok a⟩ ↔ bs = [] ∧ x = .ok a := by
  rw [ofOutcome, mk.injEq, eq_comm]

/-! ### How a run ends -/

/-- The run returns an error. -/
def Fails (m : Emit ε α) : Prop := ∃ e, m.outcome = .err e

/-- The run returns a value. -/
def Returns (m : Emit ε α) : Prop := ∃ a, m.outcome = .ok a

theorem Returns.not_fails {m : Emit ε α} (h : m.Returns) : ¬m.Fails := by
  rintro ⟨e, he⟩
  obtain ⟨a, ha⟩ := h
  rw [ha] at he
  cases he

theorem Fails.bind {m : Emit ε α} (h : m.Fails) (f : α → Emit ε β) : (m >>= f).Fails := by
  obtain ⟨u, x⟩ := m
  obtain ⟨e, rfl⟩ := h
  exact ⟨e, rfl⟩

theorem Returns.fails_bind {m : Emit ε α} (h : m.Returns) {f : α → Emit ε β} (hf : ∀ a, (f a).Fails) :
    (m >>= f).Fails := by
  obtain ⟨u, x⟩ := m
  obtain ⟨a, rfl⟩ := h
  exact hf a

theorem Returns.bind {m : Emit ε α} (h : m.Returns) {f : α → Emit ε β} (hf : ∀ a, (f a).Returns) :
    (m >>= f).Returns := by
  obtain ⟨u, x⟩ := m
  obtain ⟨a, rfl⟩ := h
  exact hf a

theorem returns_pure (a : α) : (pure a : Emit ε α).Returns := ⟨a, rfl⟩

theorem returns_encode {x : Outcome Empty Written} (h : ∃ w, x = .ok w) : (encode x : Emit ε Unit).Returns := by
  obtain ⟨w, rfl⟩ := h
  exact ⟨(), rfl⟩

theorem fails_ofOutcome {x : Outcome ε α} (h : ∃ e, x = .err e) : (ofOutcome x).Fails := h

theorem Fails.mapErr {m : Emit ε α} (h : m.Fails) (f : ε → ζ) : (m.mapErr f).Fails := by
  obtain ⟨e, he⟩ := h
  exact ⟨f e, by rw [Emit.mapErr, he]; rfl⟩

theorem Returns.mapErr {m : Emit ε α} (h : m.Returns) (f : ε → ζ) : (m.mapErr f).Returns := by
  obtain ⟨a, ha⟩ := h
  exact ⟨a, by rw [Emit.mapErr, ha]; rfl⟩

theorem Fails.collect {m : Emit ε Unit} (h : m.Fails) : (ofOutcome m.collect).Fails := by
  obtain ⟨e, he⟩ := h
  exact ⟨e, by rw [ofOutcome, Emit.collect, he]; rfl⟩

theorem Returns.collect {m : Emit ε Unit} (h : m.Returns) : (ofOutcome m.collect).Returns := by
  obtain ⟨a, ha⟩ := h
  exact ⟨m.written, by rw [ofOutcome, Emit.collect, ha]; rfl⟩

end Emit

/-- A computation that writes and changes a state in place. -/
def Effect (σ ε α : Type) := σ → Emit ε α × σ

namespace Effect

variable {σ ε ζ α β : Type}

protected def bind (m : Effect σ ε α) (f : α → Effect σ ε β) : Effect σ ε β := fun s =>
  match (m s).1.outcome with
  | .ok a => (⟨(m s).1.written ++ (f a (m s).2).1.written, (f a (m s).2).1.outcome⟩, (f a (m s).2).2)
  | .err e => (⟨(m s).1.written, .err e⟩, (m s).2)
  | .panic p => (⟨(m s).1.written, .panic p⟩, (m s).2)

instance : Monad (Effect σ ε) where
  pure a s := (pure a, s)
  bind := Effect.bind

/-- A run that does not look at the state. -/
def emit (m : Emit ε α) : Effect σ ε α := fun s => (m, s)

/-- Write the bytes of an encoder. -/
def encode (x : Outcome Empty Written) : Effect σ ε Unit := emit (.encode x)

/-- A result that does not depend on the state. -/
def ofOutcome (x : Outcome ε α) : Effect σ ε α := emit (.ofOutcome x)

/-- Look at the state. -/
def read (f : σ → α) : Effect σ ε α := fun s => (pure (f s), s)

def modify (f : σ → σ) : Effect σ ε Unit := fun s => (pure (), f s)

/-- Run with a writer of its own, and return what was written there. -/
def collect (m : Effect σ ε Unit) : Effect σ ε Bytes := fun s => (.ofOutcome (m s).1.collect, (m s).2)

def mapErr (f : ε → ζ) (m : Effect σ ε α) : Effect σ ζ α := fun s => ((m s).1.mapErr f, (m s).2)

/-- Return the error of a failed run as a value. -/
def attempt (m : Effect σ ε α) : Effect σ ζ (Except ε α) := fun s =>
  match (m s).1.outcome with
  | .ok a => (⟨(m s).1.written, .ok (.ok a)⟩, (m s).2)
  | .err e => (⟨(m s).1.written, .ok (.error e)⟩, (m s).2)
  | .panic p => (⟨(m s).1.written, .panic p⟩, (m s).2)

/-- `Option::get_or_insert_with` on a cell of the state. -/
def memo (get : σ → Option α) (set : α → σ → σ) (compute : Effect σ ε α) : Effect σ ε α := fun s =>
  match get s with
  | some a => (pure a, s)
  | none => (do
      let a ← compute
      modify (set a)
      return a : Effect σ ε α) s

theorem ofOutcome_ok_bind (a : α) (f : α → Effect σ ε β) : (ofOutcome (.ok a) >>= f) = f a := rfl

theorem outcome_bind_pure (m : Effect σ ε α) (f : α → β) (s : σ) :
    ((m >>= fun a => pure (f a)) s).1.outcome = f <$> (m s).1.outcome := by
  show (Effect.bind m _ s).1.outcome = _
  unfold Effect.bind
  cases (m s).1.outcome <;> rfl

/-- From states with the invariant, the computation does what `t` does, and keeps the invariant. -/
def Realizes (I : σ → Prop) (m : Effect σ ε α) (t : Emit ε α) : Prop :=
  ∀ s, I s → (m s).1 = t ∧ I (m s).2

namespace Realizes

variable {I : σ → Prop}

theorem emit (t : Emit ε α) : Realizes I (Effect.emit t) t := fun _ hs => ⟨rfl, hs⟩

theorem encode (x : Outcome Empty Written) : Realizes I (Effect.encode x : Effect σ ε Unit) (.encode x) :=
  emit _

theorem ofOutcome (x : Outcome ε α) : Realizes I (Effect.ofOutcome x : Effect σ ε α) (.ofOutcome x) :=
  emit _

theorem pure (a : α) : Realizes I (Pure.pure a : Effect σ ε α) (Pure.pure a) := fun _ hs => ⟨rfl, hs⟩

theorem read {f : σ → α} {a : α} (h : ∀ s, I s → f s = a) :
    Realizes I (Effect.read f : Effect σ ε α) (Pure.pure a) := by
  intro s hs
  refine ⟨?_, hs⟩
  rw [Effect.read, h s hs]

theorem modify {f : σ → σ} (h : ∀ s, I s → I (f s)) :
    Realizes I (Effect.modify f : Effect σ ε Unit) (Pure.pure ()) := fun s hs => ⟨rfl, h s hs⟩

theorem bind {m : Effect σ ε α} {t : Emit ε α} {f : α → Effect σ ε β} {g : α → Emit ε β}
    (hm : Realizes I m t) (hf : ∀ a, t.outcome = .ok a → Realizes I (f a) (g a)) :
    Realizes I (m >>= f) (t >>= g) := by
  intro s hs
  obtain ⟨rfl, hs'⟩ := hm s hs
  show (Effect.bind m f s).1 = Emit.bind (m s).1 g ∧ I (Effect.bind m f s).2
  unfold Effect.bind Emit.bind
  cases hout : (m s).1.outcome with
  | ok a =>
    obtain ⟨hrun, hs''⟩ := hf a hout _ hs'
    simp only [hrun]
    exact ⟨trivial, hs''⟩
  | err e => exact ⟨rfl, hs'⟩
  | panic p => exact ⟨rfl, hs'⟩

theorem ite {c : Prop} [Decidable c] {m m' : Effect σ ε α} {t t' : Emit ε α}
    (h : c → Realizes I m t) (h' : ¬c → Realizes I m' t') :
    Realizes I (if c then m else m') (if c then t else t') := by
  split_ifs with hc
  · exact h hc
  · exact h' hc

theorem collect {m : Effect σ ε Unit} {t : Emit ε Unit} (h : Realizes I m t) :
    Realizes I m.collect (.ofOutcome t.collect) := by
  intro s hs
  obtain ⟨rfl, hs'⟩ := h s hs
  exact ⟨rfl, hs'⟩

theorem mapErr {m : Effect σ ε α} {t : Emit ε α} (h : Realizes I m t) (f : ε → ζ) :
    Realizes I (m.mapErr f) (t.mapErr f) := by
  intro s hs
  obtain ⟨rfl, hs'⟩ := h s hs
  exact ⟨rfl, hs'⟩

/-- A cell that is filled on demand cannot be told from the computation that fills it. -/
theorem memo {get : σ → Option α} {set : α → σ → σ} {compute : Effect σ ε α} {x : Outcome ε α}
    (hcompute : Realizes I compute (.ofOutcome x)) (hget : ∀ s a, I s → get s = some a → x = .ok a)
    (hset : ∀ s a, I s → x = .ok a → I (set a s)) :
    Realizes I (Effect.memo get set compute) (.ofOutcome x) := by
  intro s hs
  unfold Effect.memo
  cases hcell : get s with
  | some a =>
    obtain rfl := hget s a hs hcell
    exact ⟨rfl, hs⟩
  | none =>
    have hfill : Realizes I (compute >>= fun a => Effect.modify (set a) >>= fun _ => Pure.pure a)
        (Emit.ofOutcome x >>= fun a => (Pure.pure () : Emit ε Unit) >>= fun _ => Pure.pure a) := by
      apply hcompute.bind
      intro a ha
      exact (modify fun s hs => hset s a hs ha).bind fun _ _ => pure a
    obtain ⟨hrun, hs'⟩ := hfill s hs
    refine ⟨?_, hs'⟩
    calc _ = _ := hrun
      _ = Emit.ofOutcome x := by cases x <;> rfl

/-- It does what it does from one of the states. -/
theorem eq_of_state {m : Effect σ ε α} {t : Emit ε α} (h : Realizes I m t) {s : σ} (hs : I s) : (m s).1 = t :=
  (h s hs).1

end Realizes

/-- From states with the invariant, the computation always does the same, and keeps the invariant. -/
def Transparent (I : σ → Prop) (m : Effect σ ε α) : Prop := ∃ t, Realizes I m t

namespace Transparent

variable {I : σ → Prop}

theorem ofOutcome (x : Outcome ε α) : Transparent I (Effect.ofOutcome x : Effect σ ε α) := ⟨_, .ofOutcome x⟩

theorem pure (a : α) : Transparent I (Pure.pure a : Effect σ ε α) := ⟨_, .pure a⟩

theorem bind {m : Effect σ ε α} {f : α → Effect σ ε β} (hm : Transparent I m) (hf : ∀ a, Transparent I (f a)) :
    Transparent I (m >>= f) := by
  obtain ⟨t, ht⟩ := hm
  choose g hg using hf
  exact ⟨t >>= g, ht.bind fun a _ => hg a⟩

/-- What comes of an outcome that is known. -/
theorem ofOutcome_bind {x : Outcome ε α} {f : α → Effect σ ε β} (hf : ∀ a, x = .ok a → Transparent I (f a)) :
    Transparent I (Effect.ofOutcome x >>= f) := by
  cases x with
  | ok a => exact hf a rfl
  | err e => exact ofOutcome (.err e)
  | panic p => exact ofOutcome (.panic p)

theorem mapErr {m : Effect σ ε α} (h : Transparent I m) (f : ε → ζ) : Transparent I (m.mapErr f) := by
  obtain ⟨t, ht⟩ := h
  exact ⟨_, ht.mapErr f⟩

/-- From all states, it does what it does from one of them. -/
theorem realizes {m : Effect σ ε α} (h : Transparent I m) {s : σ} (hs : I s) : Realizes I m (m s).1 := by
  obtain ⟨t, ht⟩ := h
  rwa [ht.eq_of_state hs]

end Transparent

/-- From states with the invariant, the computation ends as `P` says, and keeps the invariant. -/
def Ensures (I : σ → Prop) (m : Effect σ ε α) (P : Outcome ε α → Prop) : Prop :=
  ∀ s, I s → P (m s).1.outcome ∧ I (m s).2

namespace Ensures

variable {I : σ → Prop} {P : Outcome ε α → Prop}

theorem mono {m : Effect σ ε α} {Q : Outcome ε α → Prop} (h : Ensures I m P) (hPQ : ∀ x, P x → Q x) :
    Ensures I m Q := fun s hs => ⟨hPQ _ (h s hs).1, (h s hs).2⟩

theorem of_realizes {m : Effect σ ε α} {t : Emit ε α} (h : Realizes I m t) (hP : P t.outcome) :
    Ensures I m P := by
  intro s hs
  obtain ⟨rfl, hs'⟩ := h s hs
  exact ⟨hP, hs'⟩

theorem ofOutcome {x : Outcome ε α} (h : P x) : Ensures I (Effect.ofOutcome x) P := of_realizes (.ofOutcome x) h

theorem pure {a : α} (h : P (.ok a)) : Ensures I (Pure.pure a : Effect σ ε α) P := of_realizes (.pure a) h

theorem bind {m : Effect σ ε α} {f : α → Effect σ ε β} {Q : Outcome ε β → Prop} (hm : Ensures I m P)
    (hok : ∀ a, P (.ok a) → Ensures I (f a) Q) (herr : ∀ e, P (.err e) → Q (.err e))
    (hpanic : ∀ p, P (.panic p) → Q (.panic p)) : Ensures I (m >>= f) Q := by
  intro s hs
  obtain ⟨hP, hs'⟩ := hm s hs
  show Q (Effect.bind m f s).1.outcome ∧ I (Effect.bind m f s).2
  unfold Effect.bind
  cases hout : (m s).1.outcome with
  | ok a => exact hok a (hout ▸ hP) _ hs'
  | err e => exact ⟨herr e (hout ▸ hP), hs'⟩
  | panic p => exact ⟨hpanic p (hout ▸ hP), hs'⟩

/-- After a computation that returns. -/
theorem bind_returns {m : Effect σ ε α} {Q : α → Prop} (hm : Ensures I m fun x => ∃ a, x = .ok a ∧ Q a)
    {f : α → Effect σ ε β} {R : Outcome ε β → Prop} (hf : ∀ a, Q a → Ensures I (f a) R) : Ensures I (m >>= f) R := by
  apply hm.bind
  · rintro _ ⟨_, hok, ha⟩
    cases hok
    exact hf _ ha
  · rintro e ⟨_, he, -⟩
    cases he
  · rintro p ⟨_, hp, -⟩
    cases hp

theorem and {m : Effect σ ε α} {Q : Outcome ε α → Prop} (h : Ensures I m P) (h' : ∀ s, I s → Q (m s).1.outcome) :
    Ensures I m fun x => P x ∧ Q x := fun s hs => ⟨⟨(h s hs).1, h' s hs⟩, (h s hs).2⟩

theorem endsBy_map {C : Prop} {m : Effect σ ε α} (h : Ensures I m (Outcome.EndsBy C)) (f : α → β) :
    Ensures I (m >>= fun a => Pure.pure (f a)) (Outcome.EndsBy C) := by
  intro s hs
  obtain ⟨hm, hs'⟩ := h s hs
  refine ⟨?_, ?_⟩
  · rw [outcome_bind_pure]
    exact hm.map f
  · show I (Effect.bind m _ s).2
    unfold Effect.bind
    cases (m s).1.outcome <;> exact hs'

theorem attempt {m : Effect σ ε α} {Q : Outcome ζ (Except ε α) → Prop} (hm : Ensures I m P)
    (hok : ∀ a, P (.ok a) → Q (.ok (.ok a))) (herr : ∀ e, P (.err e) → Q (.ok (.error e)))
    (hpanic : ∀ p, P (.panic p) → Q (.panic p)) : Ensures I (m.attempt : Effect σ ζ _) Q := by
  intro s hs
  obtain ⟨hP, hs'⟩ := hm s hs
  unfold Effect.attempt
  cases hout : (m s).1.outcome with
  | ok a => exact ⟨hok a (hout ▸ hP), hs'⟩
  | err e => exact ⟨herr e (hout ▸ hP), hs'⟩
  | panic p => exact ⟨hpanic p (hout ▸ hP), hs'⟩

/-! ### Loops

The loop invariant speaks of the items that are left. -/

variable {f : β → α → Effect σ ε β} {J : List α → β → Prop}

/-- If no turn fails, the loop does not. -/
theorem foldlM_returns
    (hturn : ∀ a l b, J (a :: l) b → Ensures I (f b a) fun x => ∃ b', x = .ok b' ∧ J l b')
    {l : List α} {b : β} (h : J l b) : Ensures I (l.foldlM f b) fun x => ∃ b', x = .ok b' ∧ J [] b' := by
  induction l generalizing b with
  | nil => exact pure ⟨b, rfl, h⟩
  | cons a l ih =>
    rw [List.foldlM_cons]
    exact (hturn a l b h).bind_returns fun b' hb' => ih hb'

theorem returnsOr_bind {F : Prop} {Q : α → Prop} {Q' : β → Prop} {m : Effect σ ε α} {f : α → Effect σ ε β}
    (hm : Ensures I m (Outcome.ReturnsOr F Q)) (hf : ∀ a, Q a → Ensures I (f a) (Outcome.ReturnsOr F Q')) :
    Ensures I (m >>= f) (Outcome.ReturnsOr F Q') :=
  hm.bind hf (fun _ he => he) fun _ _ => trivial

theorem returnsOr_foldlM {F : Prop} (hturn : ∀ a l b, J (a :: l) b → Ensures I (f b a) (Outcome.ReturnsOr F (J l)))
    {l : List α} {b : β} (h : J l b) : Ensures I (l.foldlM f b) (Outcome.ReturnsOr F (J [])) := by
  induction l generalizing b with
  | nil => exact pure h
  | cons a l ih =>
    rw [List.foldlM_cons]
    exact (hturn a l b h).returnsOr_bind fun b' => ih

/-- If some turn panics and none returns an error, the loop panics. -/
theorem foldlM_panics {F : α → Prop}
    (hturn : ∀ a l b, J (a :: l) b →
      Ensures I (f b a) fun x => (∃ p, x = .panic p) ∨ ¬F a ∧ ∃ b', x = .ok b' ∧ J l b')
    {l : List α} (hfatal : ∃ a ∈ l, F a) {b : β} (h : J l b) :
    Ensures I (l.foldlM f b) fun x => ∃ p, x = .panic p := by
  induction l generalizing b with
  | nil =>
    obtain ⟨a, ha, -⟩ := hfatal
    cases ha
  | cons a l ih =>
    rw [List.foldlM_cons]
    apply (hturn a l b h).bind
    · rintro _ (⟨_, hp⟩ | ⟨hno, b', hok, hb'⟩)
      · cases hp
      · cases hok
        obtain ⟨a', ha', hfatal'⟩ := hfatal
        rcases List.mem_cons.1 ha' with rfl | ha'
        · exact absurd hfatal' hno
        · exact ih ⟨a', ha', hfatal'⟩ hb'
    · rintro e (⟨_, he⟩ | ⟨-, _, he, -⟩) <;> cases he
    · intro p _
      exact ⟨p, rfl⟩

end Ensures

/-- From states with the invariant, the computation does not panic, and keeps the invariant. -/
def Safe (I : σ → Prop) (m : Effect σ ε α) : Prop := Ensures I m Outcome.NoPanic

namespace Safe

variable {I : σ → Prop}

theorem emit {t : Emit ε α} (h : t.outcome.NoPanic) : Safe I (Effect.emit t) := .of_realizes (.emit t) h

theorem emit_of_returns {t : Emit ε α} (h : t.Returns) : Safe I (Effect.emit t) := by
  obtain ⟨a, ha⟩ := h
  exact emit (ha ▸ Outcome.noPanic_ok a)

theorem pure (a : α) : Safe I (Pure.pure a : Effect σ ε α) := Ensures.pure (Outcome.noPanic_ok a)

theorem bind {m : Effect σ ε α} {f : α → Effect σ ε β} (hm : Safe I m) (hf : ∀ a, Safe I (f a)) :
    Safe I (m >>= f) :=
  Ensures.bind hm (fun a _ => hf a) (fun e _ => Outcome.noPanic_err e) fun p hp => absurd rfl (hp p)

theorem ofOutcome_bind {x : Outcome ε α} {f : α → Effect σ ε β} (h : x.NoPanic)
    (hf : ∀ a, x = .ok a → Safe I (f a)) : Safe I (Effect.ofOutcome x >>= f) :=
  Ensures.bind (.of_realizes (P := fun y => y = x) (.ofOutcome x) rfl) (fun a ha => hf a ha.symm)
    (fun e _ => Outcome.noPanic_err e) fun p hp => absurd hp.symm (h p)

/-- A state is looked at as the invariant allows. -/
theorem read_bind {f : σ → α} {g : α → Effect σ ε β} (h : ∀ s, I s → Safe I (g (f s))) :
    Safe I (Effect.read f >>= g) := fun s hs => h s hs s hs

theorem ite {c : Prop} [Decidable c] {m m' : Effect σ ε α} (h : Safe I m) (h' : Safe I m') :
    Safe I (if c then m else m') := by
  split_ifs
  · exact h
  · exact h'

theorem mapErr {m : Effect σ ε α} (h : Safe I m) (f : ε → ζ) : Safe I (m.mapErr f) :=
  fun s hs => ⟨(h s hs).1.mapErr f, (h s hs).2⟩

theorem collect {m : Effect σ ε Unit} (h : Safe I m) : Safe I m.collect := by
  intro s hs
  obtain ⟨hrun, hs'⟩ := h s hs
  refine ⟨fun p hp => hrun p ?_, hs'⟩
  exact Outcome.map_eq_panic_iff.1 hp

/-- A cell is filled without a panic if the computation that fills it does not panic. -/
theorem memo {get : σ → Option α} {set : α → σ → σ} {compute : Effect σ ε α} (hcompute : Safe I compute)
    (hset : ∀ s a, I s → I (set a s)) : Safe I (Effect.memo get set compute) := by
  intro s hs
  unfold Effect.memo
  cases get s with
  | some a => exact ⟨Outcome.noPanic_ok a, hs⟩
  | none =>
    refine hcompute.bind (fun a => ?_) s hs
    exact fun s hs => ⟨Outcome.noPanic_ok a, hset s a hs⟩

/-- What follows a computation without a panic of its own does not change when the whole panics. -/
theorem panicsIff_bind {C : Prop} {m : Effect σ ε α} {f : α → Effect σ ε β}
    (hm : Ensures I m (Outcome.PanicsIff C)) (hf : ∀ a, Safe I (f a)) :
    Ensures I (m >>= f) (Outcome.PanicsIff C) := by
  refine hm.bind (fun a ha => ?_) (fun e he => ?_) fun p hp => ?_
  · exact (hf a).mono fun _ => .of_noPanic (ha.not_holds (Outcome.noPanic_ok a))
  · exact .of_noPanic (he.not_holds (Outcome.noPanic_err e)) (Outcome.noPanic_err e)
  · exact .of_panic hp.holds p

theorem attempt {m : Effect σ ε α} (h : Safe I m) : Safe I (m.attempt : Effect σ ζ _) :=
  Ensures.attempt h (fun _ _ => Outcome.noPanic_ok _) (fun _ _ => Outcome.noPanic_ok _)
    fun p hp => absurd rfl (hp p)

theorem foldlM {f : β → α → Effect σ ε β} (hf : ∀ b a, Safe I (f b a)) (l : List α) (b : β) :
    Safe I (l.foldlM f b) := by
  induction l generalizing b with
  | nil => exact pure b
  | cons a l ih =>
    rw [List.foldlM_cons]
    exact (hf b a).bind ih

end Safe

/-- What the computation returns is in `Q`, from whatever state. -/
def Yields (m : Effect σ ε α) (Q : α → Prop) : Prop := ∀ s a, (m s).1.outcome = .ok a → Q a

namespace Yields

variable {Q : α → Prop}

theorem pure {a : α} (h : Q a) : Yields (Pure.pure a : Effect σ ε α) Q := by
  intro s b hb
  obtain rfl := Outcome.ok.inj hb
  exact h

theorem bind {m : Effect σ ε α} {f : α → Effect σ ε β} {Q' : β → Prop} (hm : Yields m Q)
    (hf : ∀ a, Q a → Yields (f a) Q') : Yields (m >>= f) Q' := by
  intro s b hb
  change (Effect.bind m f s).1.outcome = .ok b at hb
  unfold Effect.bind at hb
  cases hout : (m s).1.outcome with
  | ok a =>
    rw [hout] at hb
    exact hf a (hm s a hout) _ b hb
  | err e =>
    rw [hout] at hb
    cases hb
  | panic p =>
    rw [hout] at hb
    cases hb

/-- Nothing is said about what the first computation returns. -/
theorem of_bind {m : Effect σ ε α} {f : α → Effect σ ε β} {Q' : β → Prop} (hf : ∀ a, Yields (f a) Q') :
    Yields (m >>= f) Q' := bind (Q := fun _ => True) (fun _ _ _ => trivial) fun a _ => hf a

theorem ofOutcome {x : Outcome ε α} (h : ∀ a, x = .ok a → Q a) : Yields (Effect.ofOutcome x : Effect σ ε α) Q :=
  fun _ => h

theorem foldlM {f : β → α → Effect σ ε β} {Q : β → Prop} (hf : ∀ b a, Q b → Yields (f b a) Q) (l : List α) {b : β}
    (h : Q b) : Yields (l.foldlM f b) Q := by
  induction l generalizing b with
  | nil => exact pure h
  | cons a l ih =>
    rw [List.foldlM_cons]
    exact (hf b a h).bind fun _ hb' => ih hb'

theorem attempt {m : Effect σ ε α} (hm : Yields m Q) :
    Yields (m.attempt : Effect σ ζ (Except ε α)) fun x => ∀ a, x = .ok a → Q a := by
  rintro s _ hx a rfl
  unfold Effect.attempt at hx
  cases hout : (m s).1.outcome with
  | ok b =>
    rw [hout] at hx
    cases hx
    exact hm s a hout
  | err e =>
    rw [hout] at hx
    cases hx
  | panic p =>
    rw [hout] at hx
    cases hx

theorem bind_congr {m : Effect σ ε α} {f g : α → Effect σ ε β} (hm : Yields m Q) (hfg : ∀ a, Q a → f a = g a) :
    m >>= f = m >>= g := by
  funext s
  show Effect.bind m f s = Effect.bind m g s
  unfold Effect.bind
  cases hout : (m s).1.outcome with
  | ok a => simp only [hfg a (hm s a hout)]
  | err e => rfl
  | panic p => rfl

/-- Two loops are the same if their turns agree on what the turns before them can return. -/
theorem foldlM_congr {Q : β → Prop} {f g : β → α → Effect σ ε β} {l : List α} (hf : ∀ b a, Q b → Yields (f b a) Q)
    (hfg : ∀ b, ∀ a ∈ l, Q b → f b a = g b a) {b : β} (h : Q b) : l.foldlM f b = l.foldlM g b := by
  induction l generalizing b with
  | nil => rfl
  | cons a l ih =>
    rw [List.foldlM_cons, List.foldlM_cons, ← hfg b a List.mem_cons_self h]
    exact (hf b a h).bind_congr fun b' hb' => ih (fun b a ha => hfg b a (List.mem_cons_of_mem _ ha)) hb'

end Yields

end Effect
