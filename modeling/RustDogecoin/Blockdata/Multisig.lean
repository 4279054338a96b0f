import RustDogecoin.Blockdata.InstructionItems

/-!
# Bare multisig outputs

`Script::is_multisig` of `blockdata/script/borrowed.rs`.  One pass over the instructions takes the number
of signatures, counts the pushes in a `u8`, compares the count with the number behind them, and takes the
opcode at the end.  An opcode that is not a number goes through in the place of the count
(`accepted_iff`).
-/

namespace RustDogecoin

namespace Instructions

/-- The loop over the pushes, with what is left of the iterator; nothing if the function returned `false`
from within.  The counter is a `u8`. -/
def countPubkeys : List Item → ℕ → Outcome Empty (Option (ℕ × List Item))
  | .ok (.pushBytes _) :: instructions, numPubkeys => do
    .require (numPubkeys + 1 < 256) .overflow
    countPubkeys instructions (numPubkeys + 1)
  | .ok (.op op) :: instructions, numPubkeys =>
    match decodePushnum op with
    | some pushnum =>
      if pushnum.toNat ≠ numPubkeys then return none else return some (numPubkeys, instructions)
    | none => return some (numPubkeys, instructions)
  | .error _ :: instructions, numPubkeys => return some (numPubkeys, instructions)
  | [], numPubkeys => return some (numPubkeys, [])

/-- The tests behind the loop. -/
def checkTail (requiredSigs numPubkeys : ℕ) (instructions : List Item) : Bool :=
  if requiredSigs > numPubkeys then false
  else match instructions with
    | .ok (.op op) :: instructions => if op ≠ OP_CHECKMULTISIG then false else instructions.isEmpty
    | _ => false

/-- `is_multisig`, on the answers of the iterator. -/
def isMultisigItems : List Item → Outcome Empty Bool
  | .ok (.op op) :: instructions =>
    match decodePushnum op with
    | none => return false
    | some requiredSigs => do
      match ← countPubkeys instructions 0 with
      | none => return false
      | some (numPubkeys, instructions) => return checkTail requiredSigs.toNat numPubkeys instructions
  | _ => return false

end Instructions

/-- `Script::is_multisig`. -/
def Script.isMultisig (script : ScriptBuf) : Outcome Empty Bool :=
  Instructions.isMultisigItems (ScriptBuf.instructions script).items

namespace Instructions

/-! ## Pushes -/

/-- Data pushes, as they are yielded. -/
def pushes (keys : List PushBytes) : List Item := keys.map fun key => .ok (.pushBytes key)

/-- The next answer is no push. -/
def NoPush (rest : List Item) : Prop := ∀ key tail, rest ≠ .ok (.pushBytes key) :: tail

theorem exists_pushes_append (is : List Item) : ∃ keys rest, is = pushes keys ++ rest ∧ NoPush rest := by
  induction is with
  | nil => exact ⟨[], [], rfl, nofun⟩
  | cons i is ih =>
    cases i with
    | error e => exact ⟨[], _, rfl, nofun⟩
    | ok i =>
      cases i with
      | op opcode => exact ⟨[], _, rfl, nofun⟩
      | pushBytes key =>
        obtain ⟨keys, rest, rfl, hrest⟩ := ih
        exact ⟨key :: keys, rest, rfl, hrest⟩

/-- Where the pushes end is determined. -/
theorem pushes_append_inj {keys keys' : List PushBytes} {rest rest' : List Item} (hrest : NoPush rest)
    (hrest' : NoPush rest') (h : pushes keys ++ rest = pushes keys' ++ rest') :
    keys = keys' ∧ rest = rest' := by
  induction keys generalizing keys' with
  | nil =>
    cases keys' with
    | nil => exact ⟨rfl, h⟩
    | cons key' keys' => exact absurd h (hrest key' _)
  | cons key keys ih =>
    cases keys' with
    | nil => exact absurd h.symm (hrest' key _)
    | cons key' keys' =>
      simp only [pushes, List.map_cons, List.cons_append, List.cons.injEq, Except.ok.injEq,
        Instruction.pushBytes.injEq] at h
      obtain ⟨rfl, htail⟩ := h
      obtain ⟨rfl, hrest⟩ := ih htail
      exact ⟨rfl, hrest⟩

/-- The pushes at the beginning are all before the first answer that is none. -/
theorem length_le_of_pushes_append {keys keys' : List PushBytes} {rest rest' : List Item}
    (hrest : NoPush rest) (h : pushes keys ++ rest = pushes keys' ++ rest') : keys'.length ≤ keys.length := by
  obtain ⟨more, rest', rfl, hrest'⟩ := exists_pushes_append rest'
  have happend : pushes keys ++ rest = pushes (keys' ++ more) ++ rest' := by
    rw [h, pushes, pushes, pushes, List.map_append, List.append_assoc]
  obtain ⟨rfl, -⟩ := pushes_append_inj hrest hrest' happend
  simp

/-! ## The forms -/

/-- `OP_m`, `n` pushes, `OP_n` and `OP_CHECKMULTISIG`. -/
def MultisigForm (is : List Item) : Prop :=
  ∃ m n keys, 1 ≤ m ∧ m ≤ n ∧ n ≤ 16 ∧ keys.length = n ∧ is =
    .ok (.op (numberOpcode m)) ::
      (pushes keys ++ [.ok (.op (numberOpcode n)), .ok (.op OP_CHECKMULTISIG)])

/-- The same with an opcode that is not a number behind `m` or more pushes. -/
def NoCount (is : List Item) : Prop :=
  ∃ m keys op, 1 ≤ m ∧ m ≤ 16 ∧ m ≤ keys.length ∧ keys.length < 256 ∧ decodePushnum op = none ∧ is =
    .ok (.op (numberOpcode m)) :: (pushes keys ++ [.ok (.op op), .ok (.op OP_CHECKMULTISIG)])

/-- `OP_m` and more pushes than a `u8` counts. -/
def TooManyPushes (is : List Item) : Prop :=
  ∃ m keys rest, 1 ≤ m ∧ m ≤ 16 ∧ 256 ≤ keys.length ∧ is =
    .ok (.op (numberOpcode m)) :: (pushes keys ++ rest)

theorem noPush_op (op : UInt8) (tail : List Item) : NoPush (.ok (.op op) :: tail) := nofun

section Parts

variable {op m : UInt8} {keys : List PushBytes} {rest : List Item}

theorem toNat_eq_of_numberOpcode {k : ℕ} (hop : decodePushnum op = some m) (hmin : 1 ≤ k) (hmax : k ≤ 16)
    (h : op = numberOpcode k) : m.toNat = k := by
  rw [h, decodePushnum_numberOpcode hmin hmax] at hop
  cases hop
  exact UInt8.toNat_ofNat_of_lt' (hmax.trans_lt (by decide))

/-- The form of a script that begins with a number and is taken apart behind its pushes. -/
theorem multisigForm_iff (hop : decodePushnum op = some m) (hrest : NoPush rest) :
    MultisigForm (.ok (.op op) :: (pushes keys ++ rest)) ↔ m.toNat ≤ keys.length ∧
      ∃ x, rest = [.ok (.op x), .ok (.op OP_CHECKMULTISIG)] ∧
        decodePushnum x = some (UInt8.ofNat keys.length) ∧ keys.length < 256 := by
  obtain ⟨hmin, hmax, hnum⟩ := decodePushnum_eq_some_iff.1 hop
  constructor
  · rintro ⟨m', n, keys', hmin', hle, hmax', rfl, heq⟩
    obtain ⟨hhead, htail⟩ := List.cons.inj heq
    obtain ⟨rfl, rfl⟩ := pushes_append_inj hrest (noPush_op _ _) htail
    simp only [Except.ok.injEq, Instruction.op.injEq] at hhead
    have hm := toNat_eq_of_numberOpcode hop hmin' (hle.trans hmax') hhead
    exact ⟨hm ▸ hle, _, rfl, decodePushnum_numberOpcode (hmin'.trans hle) hmax', by omega⟩
  · rintro ⟨hle, x, rfl, hx, hlt⟩
    obtain ⟨hmin', hmax', hx⟩ := decodePushnum_eq_some_iff.1 hx
    rw [UInt8.toNat_ofNat_of_lt' hlt] at hmax' hx
    exact ⟨m.toNat, _, keys, hmin, hle, hmax', rfl, by rw [← hx, ← hnum]⟩

theorem noCount_iff (hop : decodePushnum op = some m) (hrest : NoPush rest) :
    NoCount (.ok (.op op) :: (pushes keys ++ rest)) ↔ m.toNat ≤ keys.length ∧ keys.length < 256 ∧
      ∃ x, rest = [.ok (.op x), .ok (.op OP_CHECKMULTISIG)] ∧ decodePushnum x = none := by
  obtain ⟨hmin, hmax, hnum⟩ := decodePushnum_eq_some_iff.1 hop
  constructor
  · rintro ⟨m', keys', x, hmin', hmax', hle, hlt, hx, heq⟩
    obtain ⟨hhead, htail⟩ := List.cons.inj heq
    obtain ⟨rfl, rfl⟩ := pushes_append_inj hrest (noPush_op _ _) htail
    simp only [Except.ok.injEq, Instruction.op.injEq] at hhead
    have hm := toNat_eq_of_numberOpcode hop hmin' hmax' hhead
    exact ⟨hm ▸ hle, hlt, x, rfl, hx⟩
  · rintro ⟨hle, hlt, x, rfl, hx⟩
    exact ⟨m.toNat, keys, x, hmin, hmax, hle, hlt, hx, by rw [← hnum]⟩

theorem tooManyPushes_iff (hop : decodePushnum op = some m) (hrest : NoPush rest) :
    TooManyPushes (.ok (.op op) :: (pushes keys ++ rest)) ↔ 256 ≤ keys.length := by
  obtain ⟨hmin, hmax, hnum⟩ := decodePushnum_eq_some_iff.1 hop
  constructor
  · rintro ⟨m', keys', rest', -, -, hmany, heq⟩
    exact hmany.trans (length_le_of_pushes_append hrest (List.cons.inj heq).2)
  · intro hmany
    exact ⟨m.toNat, keys, rest, hmin, hmax, hmany, by rw [← hnum]⟩

/-! ## The recogniser -/

/-- The counter goes up to 255. -/
theorem countPubkeys_pushes {n : ℕ} (h : n + keys.length < 256) (rest : List Item) :
    countPubkeys (pushes keys ++ rest) n = countPubkeys rest (n + keys.length) := by
  induction keys generalizing n with
  | nil => rfl
  | cons key keys ih =>
    rw [List.length_cons] at h
    have hstep : countPubkeys (pushes (key :: keys) ++ rest) n =
      (.require (n + 1 < 256) .overflow >>= fun _ => countPubkeys (pushes keys ++ rest) (n + 1)) := rfl
    rw [hstep, Outcome.require_of (by omega), Outcome.ok_bind, ih (by omega), List.length_cons,
      Nat.add_assoc, Nat.add_comm 1]

theorem countPubkeys_overflow {n : ℕ} (hn : n < 256) (h : 256 ≤ n + keys.length) (rest : List Item) :
    countPubkeys (pushes keys ++ rest) n = .panic .overflow := by
  induction keys generalizing n with
  | nil => exact absurd h (Nat.not_le.2 hn)
  | cons key keys ih =>
    rw [List.length_cons] at h
    have hstep : countPubkeys (pushes (key :: keys) ++ rest) n =
      (.require (n + 1 < 256) .overflow >>= fun _ => countPubkeys (pushes keys ++ rest) (n + 1)) := rfl
    rw [hstep, Outcome.require]
    split_ifs with hnext
    · exact ih hnext (by omega)
    · rfl

theorem checkTail_eq_true_iff {requiredSigs numPubkeys : ℕ} {is : List Item} :
    checkTail requiredSigs numPubkeys is = true ↔
      requiredSigs ≤ numPubkeys ∧ is = [.ok (.op OP_CHECKMULTISIG)] := by
  unfold checkTail
  split_ifs with hmany
  · simp [Nat.not_le.2 hmany]
  · split
    · split_ifs with hne <;> simp_all
    · simp_all

theorem isMultisigItems_overflow (hop : decodePushnum op = some m) (h : 256 ≤ keys.length) :
    isMultisigItems (.ok (.op op) :: (pushes keys ++ rest)) = .panic .overflow := by
  have hcount : countPubkeys (pushes keys ++ rest) 0 = .panic .overflow :=
    countPubkeys_overflow (by decide) (by omega) rest
  simp only [isMultisigItems, hop, hcount]
  rfl

/-- What the recogniser takes: the count is compared only if it is a number. -/
theorem isMultisigItems_eq_ok (hop : decodePushnum op = some m) (hlt : keys.length < 256)
    (hrest : NoPush rest) (herror : ∀ e tail, rest = .error e :: tail → tail = []) :
    ∃ b, isMultisigItems (.ok (.op op) :: (pushes keys ++ rest)) = .ok b ∧ (b = true ↔
      m.toNat ≤ keys.length ∧ ∃ x, rest = [.ok (.op x), .ok (.op OP_CHECKMULTISIG)] ∧
        ∀ num ∈ decodePushnum x, num.toNat = keys.length) := by
  have hcount : countPubkeys (pushes keys ++ rest) 0 = countPubkeys rest (0 + keys.length) :=
    countPubkeys_pushes (by omega) rest
  rw [Nat.zero_add] at hcount
  simp only [isMultisigItems, hop, hcount]
  cases rest with
  | nil =>
    refine ⟨checkTail m.toNat keys.length [], rfl, ?_⟩
    simp [checkTail_eq_true_iff]
  | cons i tail =>
    cases i with
    | error e =>
      obtain rfl := herror e tail rfl
      refine ⟨checkTail m.toNat keys.length [], rfl, ?_⟩
      simp [checkTail_eq_true_iff]
    | ok i =>
      cases i with
      | pushBytes key => exact absurd rfl (hrest key tail)
      | op x =>
        cases hx : decodePushnum x with
        | none =>
          refine ⟨checkTail m.toNat keys.length tail, by simp [countPubkeys, hx], ?_⟩
          simp [checkTail_eq_true_iff, hx]
        | some num =>
          by_cases heq : num.toNat = keys.length
          · refine ⟨checkTail m.toNat keys.length tail, by simp [countPubkeys, hx, heq], ?_⟩
            simp [checkTail_eq_true_iff, hx, heq]
          · refine ⟨false, by simp [countPubkeys, hx, heq], ?_⟩
            simp [hx, heq]

/-- A tail that is taken has the count or no number in its place. -/
theorem accepted_iff (hop : decodePushnum op = some m) (hlt : keys.length < 256) (hrest : NoPush rest) :
    (m.toNat ≤ keys.length ∧ ∃ x, rest = [.ok (.op x), .ok (.op OP_CHECKMULTISIG)] ∧
      ∀ num ∈ decodePushnum x, num.toNat = keys.length) ↔
    MultisigForm (.ok (.op op) :: (pushes keys ++ rest)) ∨ NoCount (.ok (.op op) :: (pushes keys ++ rest)) := by
  rw [multisigForm_iff hop hrest, noCount_iff hop hrest]
  constructor
  · rintro ⟨hle, x, rfl, hnum⟩
    cases hx : decodePushnum x with
    | none => exact .inr ⟨hle, hlt, x, rfl, hx⟩
    | some num =>
      refine .inl ⟨hle, x, rfl, ?_, hlt⟩
      rw [hx, ← hnum num hx, UInt8.ofNat_toNat]
  · rintro (⟨hle, x, rfl, hx, -⟩ | ⟨hle, -, x, rfl, hx⟩)
    · refine ⟨hle, x, rfl, ?_⟩
      rintro num hnum
      rw [hx] at hnum
      cases hnum
      exact UInt8.toNat_ofNat_of_lt' hlt
    · refine ⟨hle, x, rfl, ?_⟩
      rintro num hnum
      rw [hx] at hnum
      cases hnum

theorem not_noCount_of_multisigForm (hop : decodePushnum op = some m) (hrest : NoPush rest)
    (h : MultisigForm (.ok (.op op) :: (pushes keys ++ rest))) :
    ¬NoCount (.ok (.op op) :: (pushes keys ++ rest)) := by
  rw [noCount_iff hop hrest]
  rintro ⟨-, -, x, rfl, hx⟩
  obtain ⟨-, x', heq, hx', -⟩ := (multisigForm_iff hop hrest).1 h
  cases heq
  rw [hx] at hx'
  cases hx'

end Parts

/-- What does not begin with a number is none of the forms. -/
theorem isMultisigItems_of_head {is : List Item}
    (h : ¬∃ op m tail, decodePushnum op = some m ∧ is = .ok (.op op) :: tail) :
    isMultisigItems is = .ok false ∧ ¬MultisigForm is ∧ ¬NoCount is ∧ ¬TooManyPushes is := by
  refine ⟨?_, ?_, ?_, ?_⟩
  · unfold isMultisigItems
    split
    · split
      · rfl
      · rename_i hop
        exact absurd ⟨_, _, _, hop, rfl⟩ h
    · rfl
  · rintro ⟨m, n, keys, hmin, hle, hmax, -, rfl⟩
    exact h ⟨_, _, _, decodePushnum_numberOpcode hmin (hle.trans hmax), rfl⟩
  · rintro ⟨m, keys, x, hmin, hmax, -, -, -, rfl⟩
    exact h ⟨_, _, _, decodePushnum_numberOpcode hmin hmax, rfl⟩
  · rintro ⟨m, keys, rest, hmin, hmax, -, rfl⟩
    exact h ⟨_, _, _, decodePushnum_numberOpcode hmin hmax, rfl⟩

/-- The recogniser on the answers of an iterator. -/
theorem isMultisigItems_iff {is : List Item}
    (herror : ∀ before e tail, is = before ++ .error e :: tail → tail = []) :
    ((∃ b, isMultisigItems is = .ok b ∧ (b = true ↔ MultisigForm is)) ↔ ¬NoCount is ∧ ¬TooManyPushes is) ∧
    ((isMultisigItems is = .ok true ↔ MultisigForm is) ↔ ¬NoCount is) := by
  by_cases hhead : ∃ op m tail, decodePushnum op = some m ∧ is = .ok (.op op) :: tail
  · obtain ⟨op, m, tail, hop, rfl⟩ := hhead
    obtain ⟨keys, rest, rfl, hrest⟩ := exists_pushes_append tail
    by_cases hmany : 256 ≤ keys.length
    · have hform : ¬MultisigForm (.ok (.op op) :: (pushes keys ++ rest)) := by
        rw [multisigForm_iff hop hrest]
        rintro ⟨-, -, -, -, hlt⟩
        omega
      have hcount : ¬NoCount (.ok (.op op) :: (pushes keys ++ rest)) := by
        rw [noCount_iff hop hrest]
        rintro ⟨-, hlt, -⟩
        omega
      rw [isMultisigItems_overflow hop hmany, tooManyPushes_iff hop hrest]
      simp [hform, hcount, hmany]
    · have hlt := Nat.lt_of_not_le hmany
      obtain ⟨b, hb, hiff⟩ := isMultisigItems_eq_ok hop hlt hrest fun e tail htail =>
        herror (.ok (.op op) :: pushes keys) e tail (by rw [htail]; rfl)
      have hboth : MultisigForm (.ok (.op op) :: (pushes keys ++ rest)) →
        ¬NoCount (.ok (.op op) :: (pushes keys ++ rest)) := not_noCount_of_multisigForm hop hrest
      rw [accepted_iff hop hlt hrest] at hiff
      rw [hb, tooManyPushes_iff hop hrest]
      simp only [Outcome.ok.injEq, exists_eq_left', hmany, not_false_eq_true, and_true, hiff]
      tauto
  · obtain ⟨hfalse, hform, hcount, hmany⟩ := isMultisigItems_of_head hhead
    rw [hfalse]
    simp [hform, hcount, hmany]

end Instructions

/-- `is_multisig` goes with the form of a multisig output exactly for the scripts that are not of this form
but for a count that is no number, and, in order that it returns at all, have no more than 255 pushes behind
the number of signatures. -/
theorem Script.isMultisig_iff (script : ScriptBuf) :
    ((∃ b, isMultisig script = .ok b ∧
      (b = true ↔ Instructions.MultisigForm (ScriptBuf.instructions script).items)) ↔
        ¬Instructions.NoCount (ScriptBuf.instructions script).items ∧
        ¬Instructions.TooManyPushes (ScriptBuf.instructions script).items) ∧
    ((isMultisig script = .ok true ↔ Instructions.MultisigForm (ScriptBuf.instructions script).items) ↔
      ¬Instructions.NoCount (ScriptBuf.instructions script).items) :=
  Instructions.isMultisigItems_iff fun _ _ _ => Instructions.items_after_error

/-- `OP_1`, a push, `OP_DUP`, `OP_CHECKMULTISIG`. -/
theorem Script.isMultisig_without_count :
    isMultisig [0x51, 0x01, 0xaa, 0x76, 0xae] = .ok true ∧
      ¬Instructions.MultisigForm (ScriptBuf.instructions [0x51, 0x01, 0xaa, 0x76, 0xae]).items := by
  have hitems : (ScriptBuf.instructions [0x51, 0x01, 0xaa, 0x76, 0xae]).items =
      .ok (.op 0x51) :: (Instructions.pushes [⟨[0xaa], by decide⟩] ++
        [.ok (.op 0x76), .ok (.op OP_CHECKMULTISIG)]) := by decide
  refine ⟨by decide, ?_⟩
  rw [hitems, Instructions.multisigForm_iff (m := 1) (by decide) (Instructions.noPush_op _ _)]
  rintro ⟨-, x, heq, hx, -⟩
  cases heq
  revert hx
  decide

example : Script.isMultisig [0x51, 0x01, 0xaa, 0x51, 0xae] = .ok true := by decide

end RustDogecoin
