import RustDogecoin.Lib.Codec

/-!
# Computations on a reader

A reader is asked for a number of bytes and answers with at most as many, or with an error.  A `Reading` is a
computation written for whatever reader it is given: all it can do with one is to ask, and it goes on from the
answer.  Run on bytes in memory (`cursor`), a reading is a `Decoder`.  A reader that `Follows` the bytes, up to the
errors it may report, makes no difference to a reading that passes errors on: `Follows.run`.
-/

/-- What a reader answers when it is asked for `n` bytes. -/
abbrev Reader.Answer (κ : Type) (n : ℕ) := Except κ {bs : Bytes // bs.length ≤ n}

/-- A reader with the states `σ`. -/
structure Reader (κ σ : Type) where
  read : (n : ℕ) → σ → Reader.Answer κ n × σ

/-- A computation over any reader: it returns, or asks for `n` bytes and goes on from the answer. -/
inductive Reading (κ ε α : Type) where
  | done (x : Outcome ε α)
  | read (n : ℕ) (k : Reader.Answer κ n → Reading κ ε α)

/-- The reader of bytes in memory. -/
def Reader.cursor {κ : Type} : Reader κ Bytes where
  read n bs := (.ok ⟨bs.take n, List.length_take_le n bs⟩, bs.drop n)

@[simp] theorem Reader.cursor_read {κ : Type} (n : ℕ) (bs : Bytes) :
    (Reader.cursor : Reader κ Bytes).read n bs = (.ok ⟨bs.take n, List.length_take_le n bs⟩, bs.drop n) := rfl

namespace Reading

variable {κ ε ζ σ α β : Type}

protected def bind : Reading κ ε α → (α → Reading κ ε β) → Reading κ ε β
  | done (.ok a), f => f a
  | done (.err e), _ => done (.err e)
  | done (.panic p), _ => done (.panic p)
  | read n k, f => read n fun r => (k r).bind f

instance : Monad (Reading κ ε) where
  pure a := done (.ok a)
  bind := Reading.bind

/-- Stop with an error. -/
def fail (e : ε) : Reading κ ε α := done (.err e)

/-- The result of a computation on a reader, and the state the reader is left in. -/
def run (r : Reader κ σ) : Reading κ ε α → σ → Outcome ε α × σ
  | done x, s => (x, s)
  | read n k, s => (k (r.read n s).1).run r (r.read n s).2

/-- `Take`: the computation on a reader that gives out at most `limit` bytes of the one below, and asks that one for
none when nothing is left. -/
def take : ℕ → Reading κ ε α → Reading κ ε α
  | _, done x => done x
  | limit, read n k => read (min n limit) fun
    | .ok bs => (k (.ok ⟨bs.1, bs.2.trans (min_le_left n limit)⟩)).take (limit - bs.1.length)
    | .error e => (k (.error e)).take limit

/-- What a reading does to bytes in memory, its errors seen through `g`. -/
def decoder (g : ε → ζ) (p : Reading κ ε α) : Decoder ζ α := fun bs =>
  (p.run .cursor bs).1.mapErr g >>= fun a => .ok (a, (p.run .cursor bs).2)

/-- Repeat a reading. -/
def times (p : Reading κ ε α) : ℕ → Reading κ ε (List α)
  | 0 => pure []
  | n + 1 => do
    let a ← p
    let as ← p.times n
    return a :: as

/-- Return with the value what is known of it; of values that all have the property, none fails the check. -/
def attach (p : Reading κ ε α) (P : α → Prop) [DecidablePred P] : Reading κ ε {a // P a} := do
  let a ← p
  if h : P a then pure ⟨a, h⟩ else done (.panic .assertion)

section Loops

variable (ofIo : κ → ε) (eof : κ)

/-- The loop of `read_exact`, with `len` bytes of the buffer to fill; every turn fills one at least. -/
def readExactLoop : ℕ → ℕ → Bytes → Reading κ ε Bytes
  | 0, _, buf => pure buf
  | fuel + 1, len, buf =>
    if len = 0 then pure buf
    else read len fun
      | .ok bs =>
        if bs.1 = [] then fail (ofIo eof) else readExactLoop fuel (len - bs.1.length) (buf ++ bs.1)
      | .error e => fail (ofIo e)

/-- `read_exact` with a buffer of `n` bytes. -/
def readExact (n : ℕ) : Reading κ ε Bytes := readExactLoop ofIo eof n n []

/-- The loop of `read_to_end`, whose chunks have 64 bytes. -/
def readToEndLoop : ℕ → Bytes → Reading κ ε Bytes
  | 0, buf => pure buf
  | fuel + 1, buf => read 64 fun
    | .ok bs => if bs.1 = [] then pure buf else readToEndLoop fuel (buf ++ bs.1)
    | .error e => fail (ofIo e)

/-- `read_to_limit`: every turn but the last takes a byte of those that are allowed. -/
def readToLimit (limit : ℕ) : Reading κ ε Bytes := (readToEndLoop ofIo (limit + 1) []).take limit

end Loops

/-! ## Runs -/

@[simp] theorem run_done (r : Reader κ σ) (x : Outcome ε α) (s : σ) :
    (done x : Reading κ ε α).run r s = (x, s) := rfl

@[simp] theorem run_pure (r : Reader κ σ) (a : α) (s : σ) :
    (pure a : Reading κ ε α).run r s = (.ok a, s) := rfl

@[simp] theorem run_fail (r : Reader κ σ) (e : ε) (s : σ) :
    (fail e : Reading κ ε α).run r s = (.err e, s) := rfl

theorem run_read (r : Reader κ σ) (n : ℕ) (k : Reader.Answer κ n → Reading κ ε α) (s : σ) :
    (read n k).run r s = (k (r.read n s).1).run r (r.read n s).2 := rfl

theorem run_bind (r : Reader κ σ) (p : Reading κ ε α) (f : α → Reading κ ε β) (s : σ) :
    (p >>= f).run r s =
      match p.run r s with
      | (.ok a, s') => (f a).run r s'
      | (.err e, s') => (.err e, s')
      | (.panic q, s') => (.panic q, s') := by
  induction p generalizing s with
  | done x => cases x <;> rfl
  | read n k ih => exact ih _ _

theorem take_drop_min (bs : Bytes) (n limit : ℕ) :
    (bs.drop (min n limit)).take (limit - (bs.take (min n limit)).length) = (bs.take limit).drop n := by
  rw [List.length_take]
  rcases Nat.le_total (min n limit) bs.length with hle | hge
  · rw [Nat.min_eq_left hle, List.drop_take]
    rcases Nat.le_total n limit with h | h
    · rw [Nat.min_eq_left h]
    · rw [Nat.min_eq_right h, Nat.sub_self, Nat.sub_eq_zero_of_le h]
      rfl
  · rw [List.drop_of_length_le hge, List.drop_of_length_le (by rw [List.length_take]; omega), List.take_nil]

theorem drop_drop_min (bs : Bytes) (n limit : ℕ) :
    (bs.drop (min n limit)).drop (limit - (bs.take (min n limit)).length) = bs.drop limit := by
  rw [List.length_take, List.drop_drop]
  rcases Nat.le_total (min n limit) bs.length with hle | hge
  · rw [Nat.min_eq_left hle, Nat.add_sub_cancel' (Nat.min_le_right n limit)]
  · rw [List.drop_of_length_le (by omega), List.drop_of_length_le (by omega)]

/-- A bound on a reading of bytes is a bound on the bytes. -/
theorem run_take (p : Reading κ ε α) (limit : ℕ) (bs : Bytes) :
    (p.take limit).run .cursor bs =
      ((p.run .cursor (bs.take limit)).1, (p.run .cursor (bs.take limit)).2 ++ bs.drop limit) := by
  induction p generalizing limit bs with
  | done x => simp [take]
  | read n k ih =>
    have htake : (bs.take limit).take n = bs.take (min n limit) := List.take_take
    rw [take, run_read, run_read]
    simp only [Reader.cursor_read, htake]
    rw [ih, take_drop_min, drop_drop_min]

/-- What is left of the bytes is not longer than they were. -/
theorem length_run_le (p : Reading κ ε α) (bs : Bytes) : (p.run .cursor bs).2.length ≤ bs.length := by
  induction p generalizing bs with
  | done x => exact Nat.le_refl _
  | read n k ih =>
    have hdrop : (bs.drop n).length ≤ bs.length := by simp
    exact (ih _ _).trans hdrop

section Loops

variable (ofIo : κ → ε) (eof : κ)

theorem run_readExactLoop (fuel len : ℕ) (buf bs : Bytes) (hf : len ≤ fuel) :
    (readExactLoop ofIo eof fuel len buf : Reading κ ε Bytes).run .cursor bs =
      if len ≤ bs.length then (.ok (buf ++ bs.take len), bs.drop len) else (.err (ofIo eof), []) := by
  induction fuel generalizing len buf bs with
  | zero =>
    obtain rfl := Nat.le_zero.1 hf
    simp [readExactLoop]
  | succ fuel ih =>
    rw [readExactLoop]
    by_cases hzero : len = 0
    · subst hzero
      simp
    · rw [if_neg hzero, run_read]
      simp only [Reader.cursor_read]
      by_cases hnil : bs.take len = []
      · obtain rfl : bs = [] := by simpa [hzero] using hnil
        simp [hzero]
      · have hpos := List.length_pos_iff.2 hnil
        rw [if_neg hnil, ih _ _ _ (by omega), List.length_take, List.length_drop]
        by_cases hle : len ≤ bs.length
        · rw [if_pos hle, Nat.min_eq_left hle, Nat.sub_self, if_pos (Nat.zero_le _), List.take_zero,
            List.append_nil]
          rfl
        · rw [if_neg hle, if_neg (by omega)]

/-- `read_exact` takes its bytes off the front, or fails at the end of the input. -/
theorem run_readExact (n : ℕ) (bs : Bytes) :
    (readExact ofIo eof n : Reading κ ε Bytes).run .cursor bs =
      if n ≤ bs.length then (.ok (bs.take n), bs.drop n) else (.err (ofIo eof), []) := by
  rw [readExact, run_readExactLoop ofIo eof n n [] bs le_rfl, List.nil_append]

theorem run_readToEndLoop (fuel : ℕ) (buf bs : Bytes) (hf : bs.length < fuel) :
    (readToEndLoop ofIo fuel buf : Reading κ ε Bytes).run .cursor bs = (.ok (buf ++ bs), []) := by
  induction fuel generalizing buf bs with
  | zero => omega
  | succ fuel ih =>
    rw [readToEndLoop, run_read]
    simp only [Reader.cursor_read]
    by_cases hnil : bs.take 64 = []
    · obtain rfl : bs = [] := by simpa using hnil
      simp
    · have hpos := List.length_pos_iff.2 hnil
      rw [List.length_take] at hpos
      rw [if_neg hnil, ih _ _ (by rw [List.length_drop]; omega), List.append_assoc,
        List.take_append_drop]

theorem run_readToLimit (limit : ℕ) (bs : Bytes) :
    (readToLimit ofIo limit : Reading κ ε Bytes).run .cursor bs = (.ok (bs.take limit), bs.drop limit) := by
  have hlen : (bs.take limit).length < limit + 1 := Nat.lt_succ_of_le (List.length_take_le limit bs)
  rw [readToLimit, run_take, run_readToEndLoop ofIo _ [] _ hlen]
  rfl

end Loops

/-! ## Readings as decoders -/

section Decoders

variable (g : ε → ζ)

theorem run_decoder (p : Reading κ ε α) (bs : Bytes) : (p.decoder g).run bs =
    (p.run .cursor bs).1.mapErr g >>= fun a => .ok (a, (p.run .cursor bs).2) := rfl

theorem length_of_run_decoder {g : ε → ζ} {p : Reading κ ε α} {bs rest : Bytes} {a : α}
    (h : (p.decoder g).run bs = .ok (a, rest)) : rest.length ≤ bs.length := by
  obtain ⟨b, -, hb⟩ := Outcome.bind_eq_ok_iff.1 h
  cases hb
  exact p.length_run_le bs

theorem decoder_fail (e : ε) : (fail e : Reading κ ε α).decoder g = Decoder.fail (g e) := rfl

theorem decoder_done (x : Outcome ε α) :
    (done x : Reading κ ε α).decoder g = Decoder.ofOutcome (x.mapErr g) := rfl

theorem decoder_bind (p : Reading κ ε α) (f : α → Reading κ ε β) :
    (p >>= f).decoder g = p.decoder g >>= fun a => (f a).decoder g := by
  funext bs
  change ((p >>= f).decoder g).run bs = (p.decoder g >>= fun a => (f a).decoder g).run bs
  rw [StateT.run_bind, run_decoder, run_decoder, run_bind]
  rcases p.run .cursor bs with ⟨_ | _ | _, s⟩ <;> rfl

theorem decoder_map (f : α → β) (p : Reading κ ε α) : (f <$> p).decoder g = f <$> p.decoder g := by
  rw [map_eq_pure_bind f (p.decoder g)]
  exact decoder_bind g p fun a => pure (f a)

theorem decoder_take (limit : ℕ) (p : Reading κ ε α) :
    (p.take limit).decoder g = Decoder.limit limit (p.decoder g) := by
  funext bs
  change ((p.take limit).decoder g).run bs = (Decoder.limit limit (p.decoder g)).run bs
  rw [run_decoder, run_take, Decoder.run_limit, run_decoder]
  rcases p.run .cursor (bs.take limit) with ⟨_ | _ | _, s⟩ <;> rfl

theorem decoder_times (p : Reading κ ε α) (n : ℕ) :
    (p.times n).decoder g = (p.decoder g).times n := by
  induction n with
  | zero => rfl
  | succ n ih =>
    rw [times, Decoder.times, decoder_bind]
    simp only [decoder_bind, ih]
    rfl

theorem decoder_attach (p : Reading κ ε α) {P : α → Prop} [DecidablePred P]
    (hd : ∀ bs a rest, (p.decoder g).run bs = .ok (a, rest) → P a) :
    (p.attach P).decoder g = (p.decoder g).attach hd := by
  funext bs
  rw [attach, decoder_bind]
  change (p.decoder g >>= _).run bs = ((p.decoder g).attach hd).run bs
  rw [StateT.run_bind]
  cases h : (p.decoder g).run bs with
  | ok r =>
    obtain ⟨a, rest⟩ := r
    have ha := hd bs a rest h
    have hrun : ((p.decoder g).attach hd).run bs = .ok (⟨a, ha⟩, rest) :=
      Decoder.run_attach_eq_ok_iff.2 h
    rw [hrun, Outcome.ok_bind]
    simp only [dif_pos ha]
    rfl
  | err e => rw [Decoder.run_attach_of_err h, Outcome.err_bind]
  | panic q => rw [Decoder.run_attach_of_panic h, Outcome.panic_bind]

theorem decoder_readExact (ofIo : κ → ε) (eof : κ) (n : ℕ) :
    (readExact ofIo eof n).decoder g = Decoder.readExact (g (ofIo eof)) n := by
  funext bs
  change ((readExact ofIo eof n).decoder g).run bs = (Decoder.readExact (g (ofIo eof)) n).run bs
  rw [run_decoder, run_readExact, Decoder.run_readExact]
  split_ifs <;> rfl

theorem decoder_readToLimit (ofIo : κ → ε) (limit : ℕ) :
    (readToLimit ofIo limit : Reading κ ε Bytes).decoder g =
      fun bs => .ok (bs.take limit, bs.drop limit) := by
  funext bs
  change ((readToLimit ofIo limit : Reading κ ε Bytes).decoder g).run bs = _
  rw [run_decoder, run_readToLimit]
  rfl

end Decoders

/-! ## Errors of the reader -/

/-- An error that the reader reports is what the reading returns. -/
def Propagates (ofIo : κ → ε) : Reading κ ε α → Prop
  | done _ => True
  | read _ k => (∀ e, k (.error e) = fail (ofIo e)) ∧ ∀ bs, (k (.ok bs)).Propagates ofIo

section Propagates

variable {ofIo : κ → ε}

theorem Propagates.bind {p : Reading κ ε α} {f : α → Reading κ ε β} (hp : p.Propagates ofIo)
    (hf : ∀ a, (f a).Propagates ofIo) : (p >>= f).Propagates ofIo := by
  induction p with
  | done x =>
    cases x with
    | ok a => exact hf a
    | err e => exact trivial
    | panic q => exact trivial
  | read n k ih =>
    refine ⟨fun e => ?_, fun bs => ih _ (hp.2 bs)⟩
    change (k (.error e)).bind f = fail (ofIo e)
    rw [hp.1 e]
    rfl

theorem Propagates.map {p : Reading κ ε α} (hp : p.Propagates ofIo) (f : α → β) :
    (f <$> p).Propagates ofIo :=
  hp.bind fun _ => trivial

theorem Propagates.take {p : Reading κ ε α} (hp : p.Propagates ofIo) (limit : ℕ) :
    (p.take limit).Propagates ofIo := by
  induction p generalizing limit with
  | done x => exact trivial
  | read n k ih =>
    rw [Reading.take]
    refine ⟨fun e => ?_, fun bs => ih _ (hp.2 _) _⟩
    simp only [hp.1 e]
    rfl

theorem Propagates.attach {p : Reading κ ε α} (hp : p.Propagates ofIo) (P : α → Prop)
    [DecidablePred P] : (p.attach P).Propagates ofIo := by
  refine hp.bind fun a => ?_
  split_ifs with ha <;> exact trivial

theorem Propagates.times {p : Reading κ ε α} (hp : p.Propagates ofIo) (n : ℕ) :
    (p.times n).Propagates ofIo := by
  induction n with
  | zero => exact trivial
  | succ n ih => exact hp.bind fun _ => ih.bind fun _ => trivial

theorem propagates_readExact (eof : κ) (n : ℕ) :
    (readExact ofIo eof n : Reading κ ε Bytes).Propagates ofIo := by
  suffices h : ∀ fuel len buf, (readExactLoop ofIo eof fuel len buf).Propagates ofIo from h _ _ _
  intro fuel
  induction fuel with
  | zero => exact fun _ _ => trivial
  | succ fuel ih =>
    intro len buf
    rw [readExactLoop]
    split_ifs with hzero
    · exact trivial
    · refine ⟨fun _ => rfl, fun bs => ?_⟩
      dsimp only
      split_ifs with hnil
      · exact trivial
      · exact ih _ _

theorem propagates_readToLimit (limit : ℕ) :
    (readToLimit ofIo limit : Reading κ ε Bytes).Propagates ofIo := by
  suffices h : ∀ fuel buf, (readToEndLoop ofIo fuel buf).Propagates ofIo from (h _ _).take limit
  intro fuel
  induction fuel with
  | zero => exact fun _ => trivial
  | succ fuel ih =>
    refine fun buf => ⟨fun _ => rfl, fun bs => ?_⟩
    dsimp only
    split_ifs with hnil
    · exact trivial
    · exact ih _

end Propagates

/-! ## Readers that follow bytes -/

end Reading

/-- In states that `R` relates to bytes, the reader gives out these bytes as `cursor` does, or reports an error that
leaves it as `F` says. -/
def Reader.Follows {κ σ : Type} (r : Reader κ σ) (R : σ → Bytes → Prop) (F : κ → σ → Prop) : Prop :=
  ∀ n s bs, R s bs →
    (∃ s', r.read n s = ((Reader.cursor.read n bs).1, s') ∧ R s' (bs.drop n)) ∨
      ∃ e s', r.read n s = (.error e, s') ∧ F e s'

/-- On a reader that follows bytes, a reading that passes errors on does what it does to the bytes, or it returns an
error of the reader. -/
theorem Reader.Follows.run {κ ε σ α : Type} {r : Reader κ σ} {R : σ → Bytes → Prop}
    {F : κ → σ → Prop} (h : r.Follows R F) {ofIo : κ → ε} {p : Reading κ ε α}
    (hp : p.Propagates ofIo) {s : σ} {bs : Bytes} (hs : R s bs) :
    (∃ s', p.run r s = ((p.run .cursor bs).1, s') ∧ R s' (p.run .cursor bs).2) ∨
      ∃ e s', p.run r s = (.err (ofIo e), s') ∧ F e s' := by
  induction p generalizing s bs with
  | done x => exact .inl ⟨s, rfl, hs⟩
  | read n k ih =>
    rw [Reading.run_read, Reading.run_read]
    obtain ⟨s', hread, hs'⟩ | ⟨e, s', hread, he⟩ := h n s bs hs
    · rw [hread]
      exact ih _ (hp.2 _) hs'
    · rw [hread, hp.1 e]
      exact .inr ⟨e, s', rfl, he⟩
