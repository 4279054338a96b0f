import RustDogecoin.Lib.Codec

/-!
# Decoders that more input does not change

A decoder is `Stable` if it does not panic and what it returns stays the same when more bytes follow those that it
was given; only the error `eof`, that the input is at its end, may give way to something else.  This is closed under
the ways decoders are put together.  A bound on the input of a stable decoder makes no difference, or it is reported
as the end of the input (`Stable.run_limit`).
-/

namespace Decoder

variable {ε α β : Type}

/-- Up to `eof`, the result on a part of the input is that on the whole. -/
class Stable (eof : ε) (d : Decoder ε α) : Prop where
  run_append : ∀ bs more, d.run bs = .err eof ∨
    (d.run bs).NoPanic ∧ d.run (bs ++ more) = (fun r => (r.1, r.2 ++ more)) <$> d.run bs

namespace Stable

variable {eof : ε}

theorem noPanic {d : Decoder ε α} (h : Stable eof d) (bs : Bytes) : (d.run bs).NoPanic := by
  rcases h.run_append bs [] with heof | ⟨hno, -⟩
  · rw [heof]
    exact Outcome.noPanic_err eof
  · exact hno

/-- The three ways in which a stable decoder ends. -/
theorem cases {d : Decoder ε α} (h : Stable eof d) (bs more : Bytes) :
    d.run bs = .err eof ∨ (∃ e, d.run bs = .err e ∧ d.run (bs ++ more) = .err e) ∨
      ∃ a rest, d.run bs = .ok (a, rest) ∧ d.run (bs ++ more) = .ok (a, rest ++ more) := by
  rcases h.run_append bs more with heof | ⟨hno, hmore⟩
  · exact .inl heof
  · cases hr : d.run bs with
    | ok r => exact .inr (.inr ⟨r.1, r.2, rfl, by rw [hmore, hr]; rfl⟩)
    | err e => exact .inr (.inl ⟨e, rfl, by rw [hmore, hr]; rfl⟩)
    | panic p => exact absurd hr (hno p)

theorem of_ok {d : Decoder ε α} {bs more rest : Bytes} {a : α} (hbs : d.run bs = .ok (a, rest))
    (hmore : d.run (bs ++ more) = .ok (a, rest ++ more)) : d.run bs = .err eof ∨
      (d.run bs).NoPanic ∧ d.run (bs ++ more) = (fun r => (r.1, r.2 ++ more)) <$> d.run bs := by
  rw [hbs, hmore]
  exact .inr ⟨Outcome.noPanic_ok _, rfl⟩

theorem of_err {d : Decoder ε α} {bs more : Bytes} {e : ε} (hbs : d.run bs = .err e)
    (hmore : d.run (bs ++ more) = .err e) : d.run bs = .err eof ∨
      (d.run bs).NoPanic ∧ d.run (bs ++ more) = (fun r => (r.1, r.2 ++ more)) <$> d.run bs := by
  rw [hbs, hmore]
  exact .inr ⟨Outcome.noPanic_err _, rfl⟩

/-! ## Rules -/

instance pure (a : α) : Stable eof (Pure.pure a : Decoder ε α) :=
  ⟨fun _ _ => of_ok rfl rfl⟩

instance fail (e : ε) : Stable eof (Decoder.fail e : Decoder ε α) :=
  ⟨fun _ _ => of_err rfl rfl⟩

theorem ofOutcome {x : Outcome ε α} (hx : x.NoPanic) : Stable eof (Decoder.ofOutcome x) := by
  refine ⟨fun bs more => ?_⟩
  cases x with
  | ok a => exact of_ok rfl rfl
  | err e => exact of_err rfl rfl
  | panic p => exact absurd rfl (hx p)

/-- The second decoder is only asked for values that the first one returned. -/
theorem bind_of {d : Decoder ε α} {f : α → Decoder ε β} (hd : Stable eof d)
    (hf : ∀ a bs rest, d.run bs = .ok (a, rest) → Stable eof (f a)) : Stable eof (d >>= f) := by
  refine ⟨fun bs more => ?_⟩
  rcases hd.cases bs more with heof | ⟨e, hbs, hmore⟩ | ⟨a, rest, hbs, hmore⟩
  · exact .inl (by rw [StateT.run_bind, heof, Outcome.err_bind])
  · refine of_err (e := e) ?_ ?_
    · rw [StateT.run_bind, hbs, Outcome.err_bind]
    · rw [StateT.run_bind, hmore, Outcome.err_bind]
  · rw [run_bind_of_ok hbs, run_bind_of_ok hmore]
    exact (hf a bs rest hbs).run_append rest more

instance bind (d : Decoder ε α) (f : α → Decoder ε β) [hd : Stable eof d] [hf : ∀ a, Stable eof (f a)] :
    Stable eof (d >>= f) :=
  bind_of hd fun a _ _ _ => hf a

instance map (f : α → β) (d : Decoder ε α) [Stable eof d] : Stable eof (f <$> d) := by
  rw [map_eq_pure_bind]
  infer_instance

instance ite (c : Prop) [Decidable c] (d d' : Decoder ε α) [Stable eof d] [Stable eof d'] :
    Stable eof (if c then d else d') := by
  split_ifs <;> infer_instance

instance ensure (c : Prop) [Decidable c] (e : ε) : Stable eof (Decoder.ensure c e) := by
  refine ⟨fun bs more => ?_⟩
  by_cases hc : c
  · exact of_ok (a := ()) (if_pos hc) (if_pos hc)
  · exact of_err (if_neg hc) (if_neg hc)

/-- Behind a check that fails, nothing has to be known. -/
theorem ensure_bind {c : Prop} [Decidable c] {e : ε} {f : Unit → Decoder ε α}
    (hf : c → Stable eof (f ())) : Stable eof (Decoder.ensure c e >>= f) := by
  refine bind_of (ensure c e) fun _ bs rest hrun => ?_
  have hc : c := by
    by_contra hc
    have hfail : (Decoder.ensure c e).run bs = .err e := if_neg hc
    rw [hfail] at hrun
    cases hrun
  exact hf hc

/-- A computation that returns. -/
theorem ofOutcome_bind {x : Outcome ε α} {a : α} {f : α → Decoder ε β} (hx : x = .ok a)
    (hf : Stable eof (f a)) : Stable eof (Decoder.ofOutcome x >>= f) := by
  subst hx
  refine bind_of (ofOutcome (Outcome.noPanic_ok a)) fun b _ _ hrun => ?_
  obtain ⟨hb, -⟩ := run_ofOutcome_eq_ok_iff.1 hrun
  rwa [← Outcome.ok.inj hb]

instance readExact (n : ℕ) : Stable eof (Decoder.readExact eof n) := by
  refine ⟨fun bs more => ?_⟩
  by_cases hn : n ≤ bs.length
  · refine of_ok (a := bs.take n) (if_pos hn) ?_
    rw [run_readExact, if_pos (hn.trans (by simp)), List.take_append_of_le_length hn,
      List.drop_append_of_le_length hn]
  · exact .inl (if_neg hn)

instance limit (n : ℕ) (d : Decoder ε α) [hd : Stable eof d] : Stable eof (Decoder.limit n d) := by
  refine ⟨fun bs more => ?_⟩
  have htake : (bs ++ more).take n = bs.take n ++ more.take (n - bs.length) := List.take_append
  have hdrop : (bs ++ more).drop n = bs.drop n ++ more.drop (n - bs.length) := List.drop_append
  rw [run_limit, run_limit, htake, hdrop]
  rcases hd.cases (bs.take n) (more.take (n - bs.length)) with heof | ⟨e, hbs, hmore⟩ | ⟨a, rest, hbs, hmore⟩
  · exact .inl (by rw [heof, Outcome.err_bind])
  · rw [hbs, hmore]
    exact .inr ⟨Outcome.noPanic_err e, rfl⟩
  · rw [hbs, hmore]
    refine .inr ⟨Outcome.noPanic_ok _, ?_⟩
    -- what is cut off the added bytes comes behind what is cut off the others
    have hmiddle : rest ++ more.take (n - bs.length) ++ (bs.drop n ++ more.drop (n - bs.length)) =
        rest ++ bs.drop n ++ more := by
      rcases Nat.le_total bs.length n with hle | hge
      · rw [List.drop_of_length_le hle, List.nil_append, List.append_assoc, List.take_append_drop,
          List.append_nil]
      · rw [Nat.sub_eq_zero_of_le hge, List.take_zero, List.drop_zero, List.append_nil, List.append_assoc]
    exact congrArg (fun bs => Outcome.ok (a, bs)) hmiddle

instance times (d : Decoder ε α) (n : ℕ) [Stable eof d] : Stable eof (d.times n) := by
  induction n with
  | zero => exact inferInstanceAs (Stable eof (Pure.pure []))
  | succ n ih =>
    exact inferInstanceAs (Stable eof (d >>= fun a => d.times n >>= fun as => Pure.pure (a :: as)))

instance attach (d : Decoder ε α) {P : α → Prop} (hP : ∀ bs a rest, d.run bs = .ok (a, rest) → P a)
    [hd : Stable eof d] : Stable eof (d.attach hP) := by
  refine ⟨fun bs more => ?_⟩
  rcases hd.cases bs more with heof | ⟨e, hbs, hmore⟩ | ⟨a, rest, hbs, hmore⟩
  · exact .inl (run_attach_of_err heof)
  · exact of_err (run_attach_of_err hbs) (run_attach_of_err hmore)
  · exact of_ok (a := ⟨a, hP bs a rest hbs⟩) (run_attach_eq_ok_iff.2 hbs) (run_attach_eq_ok_iff.2 hmore)

instance seq (d : Decoder ε α) (d' : Decoder ε β) [Stable eof d] [Stable eof d'] : Stable eof (d.seq d') :=
  inferInstanceAs (Stable eof (d >>= fun a => d' >>= fun b => Pure.pure (a, b)))

instance guard (d : Decoder ε α) (Q : α → Prop) [DecidablePred Q] (e : α → ε) [Stable eof d] :
    Stable eof (d.guard Q e) :=
  inferInstanceAs (Stable eof (d >>= fun a => Decoder.ensure (Q a) (e a) >>= fun _ => Pure.pure a))

instance counted (d : Decoder ε ℕ) (d' : Decoder ε α) [Stable eof d] [Stable eof d'] :
    Stable eof (d.counted d') :=
  inferInstanceAs (Stable eof (d >>= fun n => d'.times n))

/-- A bound makes no difference, or the input seems to be at its end. -/
theorem run_limit {d : Decoder ε α} (hd : Stable eof d) (n : ℕ) (bs : Bytes) :
    (Decoder.limit n d).run bs = .err eof ∨ (Decoder.limit n d).run bs = d.run bs := by
  have hsplit := List.take_append_drop n bs
  rw [Decoder.run_limit]
  rcases hd.cases (bs.take n) (bs.drop n) with heof | ⟨e, hbs, hmore⟩ | ⟨a, rest, hbs, hmore⟩
  · exact .inl (by rw [heof, Outcome.err_bind])
  · rw [hsplit] at hmore
    exact .inr (by rw [hbs, hmore, Outcome.err_bind])
  · rw [hsplit] at hmore
    exact .inr (by rw [hbs, hmore, Outcome.ok_bind])

end Stable

end Decoder
