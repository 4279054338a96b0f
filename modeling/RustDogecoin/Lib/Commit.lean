import RustDogecoin.Lib.Effect

/-!
# What a message commits to

`Emit.Commits m m' P` compares two runs that write: whenever both return, and whatever is written after them,
the texts are equal exactly when `P` holds and the rests are equal.  So `P` says what can be told from the
bytes, no less and no more, and what follows can be read off separately.  A value that round trips is
committed to (`Commits.encode`), and the commitments of two runs one after the other are those of both
(`Commits.bind`); there, the second pair of runs is compared under what the first has shown.
-/

section Injective

variable {ε α : Type}

/-- An encoding ends where the encoding of an equal value ends. -/
theorem RoundTrips.append_inj {enc : Encoder α} {dec : Decoder ε α} {P : α → Prop}
    (h : RoundTrips enc dec P) {a b : α} {w v : Written} (ha : P a) (hb : P b) (ea : enc a = .ok w)
    (eb : enc b = .ok v) {r s : Bytes} (hbytes : w.bytes ++ r = v.bytes ++ s) : a = b ∧ r = s := by
  have e := h a w ha ea r
  rw [hbytes, h b v hb eb s] at e
  simp only [Outcome.ok.injEq, Prod.mk.injEq] at e
  exact ⟨e.1.symm, e.2.symm⟩

/-- Lists that are written one element after the other, without their length, where no element is written
as nothing. -/
theorem RoundTrips.list_injective {enc : Encoder α} {dec : Decoder ε α}
    (h : RoundTrips enc dec fun _ => True) (hpos : ∀ a w, enc a = .ok w → w.bytes ≠ []) :
    ∀ {as bs : List α} {w v : Written}, enc.list as = .ok w → enc.list bs = .ok v → w.bytes = v.bytes →
      as = bs
  | [], [], _, _, _, _, _ => rfl
  | [], b :: bs, _, _, ha, hb, hbytes => by
    cases ha
    obtain ⟨v₁, v₂, e, -, rfl⟩ := Encoder.list_cons_eq_ok_iff.1 hb
    have hnil := (List.append_eq_nil_iff.1 hbytes.symm).1
    exact absurd hnil (hpos b v₁ e)
  | a :: as, [], _, _, ha, hb, hbytes => by
    cases hb
    obtain ⟨w₁, w₂, e, -, rfl⟩ := Encoder.list_cons_eq_ok_iff.1 ha
    have hnil := (List.append_eq_nil_iff.1 hbytes).1
    exact absurd hnil (hpos a w₁ e)
  | a :: as, b :: bs, _, _, ha, hb, hbytes => by
    obtain ⟨w₁, w₂, ea, eas, rfl⟩ := Encoder.list_cons_eq_ok_iff.1 ha
    obtain ⟨v₁, v₂, eb, ebs, rfl⟩ := Encoder.list_cons_eq_ok_iff.1 hb
    obtain ⟨rfl, hrest⟩ := h.append_inj trivial trivial ea eb hbytes
    rw [RoundTrips.list_injective h hpos eas ebs hrest]

/-- An encoding is followed by the rest of the bytes wherever the other one is. -/
def Encoder.PrefixFree (enc : Encoder α) : Prop :=
  ∀ a b w v, enc a = .ok w → enc b = .ok v → ∀ r s, w.bytes ++ r = v.bytes ++ s → a = b ∧ r = s

/-- Lists of one length, written one element after the other. -/
theorem Encoder.PrefixFree.list {enc : Encoder α} (h : enc.PrefixFree) {as bs : List α}
    (hlen : as.length = bs.length) {w v : Written} (ha : enc.list as = .ok w) (hb : enc.list bs = .ok v)
    {r s : Bytes} (hbytes : w.bytes ++ r = v.bytes ++ s) : as = bs ∧ r = s := by
  induction as generalizing bs w v with
  | nil =>
    obtain rfl := List.length_eq_zero_iff.1 hlen.symm
    cases ha
    cases hb
    exact ⟨rfl, hbytes⟩
  | cons a as ih =>
    obtain ⟨b, bs, rfl⟩ := List.exists_cons_of_length_eq_add_one hlen.symm
    obtain ⟨w₁, w₂, hw₁, hw₂, rfl⟩ := Encoder.list_cons_eq_ok_iff.1 ha
    obtain ⟨v₁, v₂, hv₁, hv₂, rfl⟩ := Encoder.list_cons_eq_ok_iff.1 hb
    simp only [Written.bytes_append, List.append_assoc] at hbytes
    obtain ⟨rfl, htail⟩ := h a b w₁ v₁ hw₁ hv₁ _ _ hbytes
    obtain ⟨rfl, hrest⟩ := ih (by simpa using hlen) hw₂ hv₂ htail
    exact ⟨rfl, hrest⟩

end Injective

namespace Emit

variable {ε ζ α β : Type}

/-- Where both runs return, what they write is equal exactly when `P`, whatever follows. -/
def Commits (m m' : Emit ε Unit) (P : Prop) : Prop :=
  ∀ u v, m = ⟨u, .ok ()⟩ → m' = ⟨v, .ok ()⟩ → ∀ r s, u ++ r = v ++ s ↔ P ∧ r = s

namespace Commits

variable {m m' n n' : Emit ε Unit} {P Q : Prop}

theorem congr (h : Commits m m' P) (hPQ : P ↔ Q) : Commits m m' Q := by
  intro u v hu hv r s
  rw [h u v hu hv r s, hPQ]

/-- The two texts are equal exactly when `P`. -/
theorem eq_iff (h : Commits m m' P) {u v : Bytes} (hu : m = ⟨u, .ok ()⟩) (hv : m' = ⟨v, .ok ()⟩) :
    u = v ↔ P := by
  have hnil := h u v hu hv [] []
  simpa using hnil

/-- Nothing is written. -/
theorem pure : Commits (Pure.pure () : Emit ε Unit) (Pure.pure ()) True := by
  intro u v hu hv r s
  cases hu
  cases hv
  simp

theorem bind (h : Commits m m' P) (h' : P → Commits n n' Q) :
    Commits (m >>= fun _ => n) (m' >>= fun _ => n') (P ∧ Q) := by
  intro u v hu hv r s
  obtain ⟨u₁, _, u₂, hm, hn, rfl⟩ := bind_eq_ok_iff.1 hu
  obtain ⟨v₁, _, v₂, hm', hn', rfl⟩ := bind_eq_ok_iff.1 hv
  rw [List.append_assoc, List.append_assoc, h u₁ v₁ hm hm', and_assoc]
  apply and_congr_right
  intro hP
  exact h' hP u₂ v₂ hn hn' r s

/-- Both runs first compute something without writing. -/
theorem value {x : Outcome ε α} {y : Outcome ε β} {f : α → Emit ε Unit} {g : β → Emit ε Unit}
    (h : ∀ a b, x = .ok a → y = .ok b → Commits (f a) (g b) P) :
    Commits (ofOutcome x >>= f) (ofOutcome y >>= g) P := by
  intro u v hu hv
  obtain ⟨u₁, a, u₂, hm, hf, rfl⟩ := bind_eq_ok_iff.1 hu
  obtain ⟨v₁, b, v₂, hm', hg, rfl⟩ := bind_eq_ok_iff.1 hv
  obtain ⟨rfl, hx⟩ := ofOutcome_eq_ok_iff.1 hm
  obtain ⟨rfl, hy⟩ := ofOutcome_eq_ok_iff.1 hm'
  exact h a b hx hy u₂ v₂ hf hg

theorem encode {enc : Encoder α} {dec : Decoder ζ α} {R : α → Prop} (h : RoundTrips enc dec R) {a b : α}
    (ha : R a) (hb : R b) : Commits (Emit.encode (enc a) : Emit ε Unit) (.encode (enc b)) (a = b) := by
  intro u v hu hv r s
  obtain ⟨w, ea, rfl⟩ := encode_eq_ok_iff.1 hu
  obtain ⟨w', eb, rfl⟩ := encode_eq_ok_iff.1 hv
  constructor
  · exact h.append_inj ha hb ea eb
  · rintro ⟨rfl, rfl⟩
    rw [Outcome.ok.inj (ea.symm.trans eb)]

/-- Nothing is compared where one of the runs fails. -/
theorem of_not_returns (h : ∀ u, m ≠ ⟨u, .ok ()⟩) : Commits m m' P := fun u _ hu => absurd hu (h u)

end Commits

end Emit
