import RustDogecoin.P2p.Command

/-!
# Messages on the wire

What `RawNetworkMessage` writes and what it accepts.  A message is a `frame` of 24 bytes and a
payload; `consensusEncode_eq_ok_iff` and `run_consensusDecode_iff` say which frames these are.
-/

namespace RustDogecoin

/-! ## The frame -/

/-- The text of a command as it is written. -/
def CommandString.padded (c : CommandString) : Bytes :=
  asBytes c.val ++ List.replicate (12 - (asBytes c.val).length) 0

theorem CommandString.length_padded {c : CommandString} (h : (asBytes c.val).length ≤ 12) :
    c.padded.length = 12 := by
  rw [CommandString.padded, List.length_append, List.length_replicate]
  omega

theorem CommandString.consensusEncode_eq_ok_iff {c : CommandString} {w : Written} :
    c.consensusEncode = .ok w ↔ (asBytes c.val).length ≤ 12 ∧ w = ⟨c.padded, 12⟩ := by
  unfold CommandString.consensusEncode
  split_ifs with h
  · show Outcome.ok (Written.ofBytes c.padded) = .ok w ↔ _
    rw [Written.ofBytes, CommandString.length_padded h]
    exact ⟨fun e => ⟨h, (Outcome.ok.inj e).symm⟩, fun e => congrArg Outcome.ok e.2.symm⟩
  · exact ⟨(by cases ·), fun e => absurd e.1 h⟩

/-- The length of a message fits into its field. -/
theorem lt_of_le_maxMsgSize {n : ℕ} (h : 24 + n ≤ MAX_MSG_SIZE) : n < 2 ^ 32 := by
  have hmax : MAX_MSG_SIZE = 5000000 := rfl
  omega

/-- The fields of a message, one after the other. -/
def frame (magic : Magic) (command : Bytes) (payloadLen : UInt32) (checksum : U8Array 4)
    (payload : Bytes) : Bytes :=
  magic.toList ++ (command ++ (leBytes 4 payloadLen.toNat ++ (checksum.toList ++ payload)))

section Frame

variable {magic : Magic} {command payload : Bytes} {payloadLen : UInt32} {checksum : U8Array 4}

theorem length_frame (h : command.length = 12) :
    (frame magic command payloadLen checksum payload).length = 24 + payload.length := by
  simp only [frame, List.length_append, length_leBytes, U8Array.length_eq, h]
  omega

theorem drop_frame (magic : Magic) (payloadLen : UInt32) (checksum : U8Array 4) (payload : Bytes)
    (h : command.length = 12) :
    (frame magic command payloadLen checksum payload).drop 4 =
        command ++ (leBytes 4 payloadLen.toNat ++ (checksum.toList ++ payload)) ∧
      (frame magic command payloadLen checksum payload).drop 16 =
        leBytes 4 payloadLen.toNat ++ (checksum.toList ++ payload) ∧
      (frame magic command payloadLen checksum payload).drop 20 = checksum.toList ++ payload ∧
      (frame magic command payloadLen checksum payload).drop 24 = payload := by
  have h₁ : (frame magic command payloadLen checksum payload).drop 4 =
      command ++ (leBytes 4 payloadLen.toNat ++ (checksum.toList ++ payload)) :=
    List.drop_left' magic.length_eq
  have h₂ : (frame magic command payloadLen checksum payload).drop 16 =
      leBytes 4 payloadLen.toNat ++ (checksum.toList ++ payload) := by
    rw [show 16 = 4 + 12 from rfl, ← List.drop_drop, h₁, List.drop_left' h]
  have h₃ : (frame magic command payloadLen checksum payload).drop 20 =
      checksum.toList ++ payload := by
    rw [show 20 = 16 + 4 from rfl, ← List.drop_drop, h₂, List.drop_left' (length_leBytes 4 _)]
  refine ⟨h₁, h₂, h₃, ?_⟩
  rw [show 24 = 20 + 4 from rfl, ← List.drop_drop, h₃, List.drop_left' checksum.length_eq]

/-- The length, the checksum and the payload of a message are found in it at fixed offsets. -/
theorem fields_frame (magic : Magic) (payloadLen : UInt32) (checksum : U8Array 4) (payload : Bytes)
    (h : command.length = 12) :
    leNat (((frame magic command payloadLen checksum payload).drop 16).take 4) = payloadLen.toNat ∧
      ((frame magic command payloadLen checksum payload).drop 20).take 4 = checksum.toList ∧
      (frame magic command payloadLen checksum payload).drop 24 = payload := by
  obtain ⟨-, h₁₆, h₂₀, h₂₄⟩ := drop_frame magic payloadLen checksum payload h
  refine ⟨?_, ?_, h₂₄⟩
  · rw [h₁₆, List.take_left' (length_leBytes 4 _), leNat_leBytes_of_lt payloadLen.toNat_lt]
  · rw [h₂₀, List.take_left' checksum.length_eq]

theorem frame_inj {command' payload' : Bytes} (h : command.length = 12) (h' : command'.length = 12)
    (e : frame magic command payloadLen checksum payload =
      frame magic command' payloadLen checksum payload') : command = command' ∧ payload = payload' := by
  obtain ⟨hcmd, htail⟩ := List.append_inj (List.append_cancel_left e) (h.trans h'.symm)
  exact ⟨hcmd, List.append_cancel_left (List.append_cancel_left htail)⟩

theorem frame_append (rest : Bytes) :
    frame magic command payloadLen checksum payload ++ rest =
      frame magic command payloadLen checksum (payload ++ rest) := by
  simp only [frame, List.append_assoc]

end Frame

theorem CheckedData.run_iff {bs rest : Bytes} {d : CheckedData} :
    CheckedData.consensusDecodeFromFiniteReader.run bs = .ok (d, rest) ↔
      d.data.length < 2 ^ 32 ∧ d.checksum = sha2Checksum d.data ∧
        bs = leBytes 4 d.data.length ++ (d.checksum.toList ++ (d.data ++ rest)) := by
  unfold CheckedData.consensusDecodeFromFiniteReader
  constructor
  · intro h
    obtain ⟨len, mid₁, hlen, h₁⟩ := Decoder.run_bind_eq_ok_iff.1 h
    obtain ⟨checksum, mid₂, hck, h₂⟩ := Decoder.run_bind_eq_ok_iff.1 h₁
    obtain ⟨data, mid₃, hdata, h₃⟩ := Decoder.run_bind_eq_ok_iff.1 h₂
    obtain ⟨hsum, hpure⟩ := Decoder.run_ensure_bind_eq_ok_iff.1 h₃
    rw [run_readBytesFromFiniteReader (by decide)] at hdata
    obtain ⟨rfl, hlength⟩ := Decoder.run_readExact_eq_ok_iff.1 hdata
    obtain rfl := eq_of_run_u32 hlen
    obtain rfl := eq_of_run_u8Array hck
    cases hpure
    refine ⟨?_, hsum.symm, ?_⟩
    · rw [hlength]
      exact len.toNat_lt
    · rw [hlength]
  · rintro ⟨hlt, hsum, rfl⟩
    have hnat : (UInt32.ofNat d.data.length).toNat = d.data.length := UInt32.toNat_ofNat_of_lt' hlt
    have hlen : u32.consensusDecodeFromFiniteReader.run
        (leBytes 4 d.data.length ++ (d.checksum.toList ++ (d.data ++ rest))) =
          .ok (UInt32.ofNat d.data.length, d.checksum.toList ++ (d.data ++ rest)) := by
      rw [← hnat, UInt32.ofNat_toNat]
      exact run_u32 _ _
    have hck : (u8Array 4).consensusDecodeFromFiniteReader.run
        (d.checksum.toList ++ (d.data ++ rest)) = .ok (d.checksum, d.data ++ rest) :=
      run_u8Array d.checksum _
    have hread : (readBytesFromFiniteReader d.data.length MAX_VEC_SIZE).run (d.data ++ rest) =
        .ok (d.data, rest) := by
      rw [run_readBytesFromFiniteReader (by decide)]
      exact Decoder.run_readExact_append _ rfl rest
    rw [Decoder.run_bind_of_ok hlen, Decoder.run_bind_of_ok hck, hnat,
      Decoder.run_bind_of_ok hread]
    dsimp only
    rw [Decoder.run_ensure_bind_of hsum.symm]
    rfl

namespace RawNetworkMessage

variable {c : Chain}

theorem consensusEncode_eq_ok_iff {m : RawNetworkMessage c.Header c.Block} {w : Written} :
    m.consensusEncode c = .ok w ↔ ∃ cmd p, m.payload.command = .ok cmd ∧
      (asBytes cmd.val).length ≤ 12 ∧ m.payload.consensusEncode c = .ok p ∧
        w = ⟨frame m.magic cmd.padded m.payloadLen m.checksum p.bytes, 24 + p.len⟩ := by
  have hwritten : ∀ (cmd : CommandString) (p : Written),
      Written.ofBytes m.magic.toList ++ (⟨cmd.padded, 12⟩ : Written) ++
        (⟨leBytes 4 m.payloadLen.toNat, 4⟩ : Written) ++ Written.ofBytes m.checksum.toList ++ p =
      ⟨frame m.magic cmd.padded m.payloadLen m.checksum p.bytes, 24 + p.len⟩ := by
    intro cmd p
    show (⟨_ ++ _ ++ _ ++ _ ++ _, m.magic.toList.length + 12 + 4 + m.checksum.toList.length + _⟩ :
      Written) = _
    rw [m.magic.length_eq, m.checksum.length_eq, frame, List.append_assoc, List.append_assoc,
      List.append_assoc]
    rfl
  unfold consensusEncode
  constructor
  · intro h
    obtain ⟨magic, hmagic, h₁⟩ := Outcome.bind_eq_ok_iff.1 h
    obtain ⟨cmd, hcmd, h₂⟩ := Outcome.bind_eq_ok_iff.1 h₁
    obtain ⟨command, hcommand, h₃⟩ := Outcome.bind_eq_ok_iff.1 h₂
    obtain ⟨len, hlen, h₄⟩ := Outcome.bind_eq_ok_iff.1 h₃
    obtain ⟨checksum, hsum, h₅⟩ := Outcome.bind_eq_ok_iff.1 h₄
    obtain ⟨p, hp, h₆⟩ := Outcome.bind_eq_ok_iff.1 h₅
    obtain ⟨hle, rfl⟩ := CommandString.consensusEncode_eq_ok_iff.1 hcommand
    obtain rfl := Outcome.ok.inj hmagic
    obtain rfl := Outcome.ok.inj hlen
    obtain rfl := Outcome.ok.inj hsum
    exact ⟨cmd, p, hcmd, hle, hp, (Outcome.ok.inj h₆).symm.trans (hwritten cmd p)⟩
  · rintro ⟨cmd, p, hcmd, hlen, hp, rfl⟩
    refine Outcome.bind_eq_ok_iff.2 ⟨_, rfl, ?_⟩
    refine Outcome.bind_eq_ok_iff.2 ⟨cmd, hcmd, ?_⟩
    refine Outcome.bind_eq_ok_iff.2 ⟨_, CommandString.consensusEncode_eq_ok_iff.2 ⟨hlen, rfl⟩, ?_⟩
    refine Outcome.bind_eq_ok_iff.2 ⟨_, rfl, ?_⟩
    refine Outcome.bind_eq_ok_iff.2 ⟨_, rfl, ?_⟩
    exact Outcome.bind_eq_ok_iff.2 ⟨p, hp, congrArg Outcome.ok (hwritten cmd p)⟩

/-- The messages that the finite-reader decoder accepts. -/
theorem run_finite_iff {bs rest : Bytes} {m : RawNetworkMessage c.Header c.Block} :
    (consensusDecodeFromFiniteReader c).run bs = .ok (m, rest) ↔
      ∃ (cmd : U8Array 12) (raw : Bytes), raw.length < 2 ^ 32 ∧
        m.payloadLen = UInt32.ofNat raw.length ∧ m.checksum = sha2Checksum raw ∧
        NetworkMessage.decodePayload c (.ofBytes cmd.toList) raw = .ok m.payload ∧
        bs = frame m.magic cmd.toList m.payloadLen m.checksum raw ++ rest := by
  unfold consensusDecodeFromFiniteReader
  constructor
  · intro h
    obtain ⟨magic, mid₁, hmagic, h₁⟩ := Decoder.run_bind_eq_ok_iff.1 h
    obtain ⟨command, mid₂, hcommand, h₂⟩ := Decoder.run_bind_eq_ok_iff.1 h₁
    obtain ⟨d, mid₃, hd, h₃⟩ := Decoder.run_bind_eq_ok_iff.1 h₂
    obtain ⟨payload, mid₄, hpayload, hpure⟩ := Decoder.run_bind_eq_ok_iff.1 h₃
    obtain ⟨cmd, mid₅, hcmd, hof⟩ := Decoder.run_bind_eq_ok_iff.1 hcommand
    obtain ⟨hp, rfl⟩ := Decoder.run_ofOutcome_eq_ok_iff.1 hpayload
    obtain ⟨hlt, hsum, rfl⟩ := CheckedData.run_iff.1 hd
    cases hof
    cases hpure
    obtain rfl := eq_of_run_u8Array hmagic
    obtain rfl := eq_of_run_u8Array hcmd
    refine ⟨cmd, d.data, hlt, rfl, hsum, hp, ?_⟩
    simp only [frame, List.append_assoc, UInt32.toNat_ofNat_of_lt' hlt]
  · rintro ⟨cmd, raw, hlt, hlen, hsum, hp, rfl⟩
    obtain ⟨magic, payload, payloadLen, checksum⟩ := m
    subst hlen
    rw [frame, List.append_assoc, List.append_assoc, List.append_assoc, List.append_assoc]
    dsimp only at hsum hp ⊢
    have hcommand : CommandString.consensusDecode.run (cmd.toList ++
        (leBytes 4 (UInt32.ofNat raw.length).toNat ++ (checksum.toList ++ (raw ++ rest)))) =
          .ok (.ofBytes cmd.toList,
            leBytes 4 (UInt32.ofNat raw.length).toNat ++ (checksum.toList ++ (raw ++ rest))) :=
      Decoder.run_bind_of_ok (run_u8Array cmd _)
    have hdata : CheckedData.consensusDecodeFromFiniteReader.run
        (leBytes 4 raw.length ++ (checksum.toList ++ (raw ++ rest))) = .ok (⟨raw, checksum⟩, rest) :=
      CheckedData.run_iff.2 ⟨hlt, hsum, rfl⟩
    rw [UInt32.toNat_ofNat_of_lt' hlt] at hcommand ⊢
    have hmagic : (u8Array 4).consensusDecodeFromFiniteReader.run (magic.toList ++ (cmd.toList ++
        (leBytes 4 raw.length ++ (checksum.toList ++ (raw ++ rest))))) =
          .ok (magic, cmd.toList ++ (leBytes 4 raw.length ++ (checksum.toList ++ (raw ++ rest)))) :=
      run_u8Array magic _
    rw [Decoder.run_bind_of_ok hmagic, Decoder.run_bind_of_ok hcommand, Decoder.run_bind_of_ok hdata]
    dsimp only
    rw [hp]
    rfl

/-- The messages that `consensus_decode` accepts, which has the first `MAX_MSG_SIZE` bytes to read. -/
theorem run_consensusDecode_iff {bs rest : Bytes} {m : RawNetworkMessage c.Header c.Block} :
    (codec c).consensusDecode.run bs = .ok (m, rest) ↔
      ∃ (cmd : U8Array 12) (raw : Bytes), 24 + raw.length ≤ MAX_MSG_SIZE ∧
        m.payloadLen = UInt32.ofNat raw.length ∧ m.checksum = sha2Checksum raw ∧
        NetworkMessage.decodePayload c (.ofBytes cmd.toList) raw = .ok m.payload ∧
        bs = frame m.magic cmd.toList m.payloadLen m.checksum raw ++ rest := by
  show ((consensusDecodeFromFiniteReader c).limit MAX_MSG_SIZE).run bs = _ ↔ _
  constructor
  · intro h
    obtain ⟨r, hr, rfl⟩ := Decoder.run_limit_eq_ok_iff.1 h
    obtain ⟨cmd, raw, -, hlen, hsum, hpayload, htake⟩ := run_finite_iff.1 hr
    obtain ⟨hle, hbs⟩ := Decoder.eq_append_of_take htake
    rw [length_frame cmd.length_eq] at hle
    exact ⟨cmd, raw, hle, hlen, hsum, hpayload, hbs⟩
  · rintro ⟨cmd, raw, hle, hlen, hsum, hpayload, rfl⟩
    refine Decoder.run_limit_append ?_ (fun rest => ?_) rest
    · rw [length_frame cmd.length_eq]
      exact hle
    · exact run_finite_iff.2 ⟨cmd, raw, lt_of_le_maxMsgSize hle, hlen, hsum, hpayload, rfl⟩

end RawNetworkMessage

/-! ## What was written is read back -/

namespace NetworkMessage

variable {c : Chain}

theorem read_eq_ok_iff {Header Block α : Type} {codec : Codec α}
    {message : α → NetworkMessage Header Block} {rawPayload : Bytes}
    {m : NetworkMessage Header Block} : read codec message rawPayload = .ok m ↔
      ∃ a r, codec.consensusDecodeFromFiniteReader.run rawPayload = .ok (a, r) ∧ message a = m := by
  unfold read
  rw [Outcome.bind_eq_ok_iff]
  constructor
  · rintro ⟨⟨a, r⟩, hr, hm⟩
    exact ⟨a, r, hr, Outcome.ok.inj hm⟩
  · rintro ⟨a, r, hr, rfl⟩
    exact ⟨(a, r), hr, rfl⟩

/-- A decoded payload is one of a known command or the payload of an unknown one. -/
theorem of_decodePayload {cmd : CommandString} {raw : Bytes} {m : NetworkMessage c.Header c.Block}
    (h : decodePayload c cmd raw = .ok m) :
    (∃ (k : Command) (p : k.Payload c) (r : Bytes), cmd.val = k.text ∧ m = k.message c p ∧
      (k.codec c).consensusDecodeFromFiniteReader.run raw = .ok (p, r)) ∨
    ((∀ k : Command, cmd.val ≠ k.text) ∧ m = .unknown cmd raw) := by
  obtain ⟨s⟩ := cmd
  by_cases hk : ∃ k : Command, s = k.text
  · obtain ⟨k, rfl⟩ := hk
    rw [k.decodePayload_text, read_eq_ok_iff] at h
    obtain ⟨p, r, hr, rfl⟩ := h
    exact .inl ⟨k, p, r, rfl, rfl, hr⟩
  · have hne : ∀ k : Command, s ≠ k.text := fun k hs => hk ⟨k, hs⟩
    rw [Command.decodePayload_unknown hne] at h
    exact .inr ⟨hne, (Outcome.ok.inj h).symm⟩

theorem representable_of_decodePayload {cmd : CommandString} {raw : Bytes}
    {m : NetworkMessage c.Header c.Block} (h : decodePayload c cmd raw = .ok m) :
    m.Representable c := by
  rcases of_decodePayload h with ⟨k, p, r, -, rfl, hr⟩ | ⟨-, rfl⟩
  · exact (k.laws c).representable raw p r hr
  · trivial

end NetworkMessage

namespace Command

variable {c : Chain}

theorem padded_text (k : Command) : CommandString.ofBytes (CommandString.padded ⟨k.text⟩) = ⟨k.text⟩ :=
  k.ofBytes_text

theorem length_padded_text (k : Command) : (CommandString.padded ⟨k.text⟩).length = 12 :=
  CommandString.length_padded k.length_text_le

/-- What is written for a message with a known command. -/
theorem consensusEncode_raw_iff {k : Command} {p : k.Payload c} {magic : Magic} {payloadLen : UInt32}
    {checksum : U8Array 4} {w : Written} :
    RawNetworkMessage.consensusEncode c ⟨magic, k.message c p, payloadLen, checksum⟩ = .ok w ↔
      ∃ v, (k.codec c).consensusEncode p = .ok v ∧
        w = ⟨frame magic (CommandString.padded ⟨k.text⟩) payloadLen checksum v.bytes, 24 + v.len⟩ := by
  rw [RawNetworkMessage.consensusEncode_eq_ok_iff]
  dsimp only
  rw [k.command_message, k.consensusEncode_message]
  constructor
  · rintro ⟨cmd, v, hcmd, -, hv, rfl⟩
    obtain rfl := Outcome.ok.inj hcmd
    exact ⟨v, hv, rfl⟩
  · rintro ⟨v, hv, rfl⟩
    exact ⟨_, v, rfl, k.length_text_le, hv, rfl⟩

/-- A frame with a known command and a payload that the codec of the command accepts. -/
theorem run_consensusDecode_raw {k : Command} {q : k.Payload c} {raw r : Bytes} (magic : Magic)
    (hmax : 24 + raw.length ≤ MAX_MSG_SIZE)
    (hr : (k.codec c).consensusDecodeFromFiniteReader.run raw = .ok (q, r)) (rest : Bytes) :
    (RawNetworkMessage.codec c).consensusDecode.run
        (frame magic (CommandString.padded ⟨k.text⟩) (UInt32.ofNat raw.length) (sha2Checksum raw) raw ++
          rest) =
      .ok (⟨magic, k.message c q, UInt32.ofNat raw.length, sha2Checksum raw⟩, rest) := by
  apply RawNetworkMessage.run_consensusDecode_iff.2
  refine ⟨⟨CommandString.padded ⟨k.text⟩, k.length_padded_text⟩, raw, hmax, rfl, rfl, ?_, rfl⟩
  dsimp only
  rw [k.padded_text, k.decodePayload_text, NetworkMessage.read_eq_ok_iff]
  exact ⟨q, r, hr, rfl⟩

end Command

namespace RawNetworkMessage

variable {c : Chain}

/-- Only representable payloads are decoded. -/
theorem representable_of_decode {bs rest : Bytes} {m : RawNetworkMessage c.Header c.Block}
    (h : (codec c).consensusDecode.run bs = .ok (m, rest)) : m.payload.Representable c := by
  obtain ⟨cmd, raw, -, -, -, hpayload, -⟩ := run_consensusDecode_iff.1 h
  exact NetworkMessage.representable_of_decodePayload hpayload

/-- Messages on the wire.  Whatever is written the way it is read, and fits into `MAX_MSG_SIZE` bytes,
is decoded from its encoding, with all of it consumed, exactly if it is representable. -/
theorem decode_inverts_encode (c : Chain) (magic : Magic) (payload : NetworkMessage c.Header c.Block)
    (p : Written) (hp : payload.consensusEncode c = .ok p)
    (hmax : 24 + p.bytes.length ≤ MAX_MSG_SIZE) (hread : payload.WrittenAsRead) :
    ∃ m w, new c magic payload = .ok m ∧ m.consensusEncode c = .ok w ∧ w.len = w.bytes.length ∧
      ((∀ rest, (codec c).consensusDecode.run (w.bytes ++ rest) = .ok (m, rest)) ↔
        payload.Representable c) := by
  rcases Command.exists_message_eq payload with ⟨k, q, rfl⟩ | ⟨cmd, raw, rfl⟩
  · rw [k.consensusEncode_message] at hp
    have hlen := (k.laws c).counts q p hp
    refine ⟨⟨magic, k.message c q, UInt32.ofNat p.bytes.length, sha2Checksum p.bytes⟩, _, ?_,
      Command.consensusEncode_raw_iff.2 ⟨p, hp, rfl⟩, ?_, ?_⟩
    · rw [new, k.consensusEncode_message, hp, Outcome.ok_bind, hlen,
        Outcome.require_of (lt_of_le_maxMsgSize hmax)]
      rfl
    · dsimp only
      rw [length_frame k.length_padded_text, hlen]
    · constructor
      · intro hback
        exact representable_of_decode (hback [])
      · intro hrep rest
        obtain ⟨r, hrun⟩ := ((k.laws c).readBack_iff q p hp).2 ⟨hrep, hread⟩
        exact Command.run_consensusDecode_raw magic hmax hrun rest
  · exact hread.elim

/-- Nothing else is decoded from its encoding. -/
theorem writtenAsRead_of_decode {m : RawNetworkMessage c.Header c.Block} {w : Written}
    (hw : m.consensusEncode c = .ok w) (h : (codec c).consensusDecode.run w.bytes = .ok (m, [])) :
    m.payload.WrittenAsRead := by
  obtain ⟨cmd, raw, -, -, -, hpayload, hframe⟩ := run_consensusDecode_iff.1 h
  obtain ⟨cmd', p, -, hcmd', hp, rfl⟩ := consensusEncode_eq_ok_iff.1 hw
  dsimp only at hframe
  rw [List.append_nil] at hframe
  obtain ⟨-, hraw⟩ := frame_inj (CommandString.length_padded hcmd') cmd.length_eq hframe
  subst hraw
  rcases NetworkMessage.of_decodePayload hpayload with ⟨k, q, r, -, hm, hr⟩ | ⟨-, hm⟩
  · rw [hm, k.consensusEncode_message] at hp
    rw [hm]
    exact (((k.laws c).readBack_iff q p hp).1 ⟨r, hr⟩).2
  · rw [hm] at hp
    obtain ⟨l, hl, hle⟩ := consensusEncodeWithSize_eq_ok_iff.1 hp
    -- an unknown payload would be as long as itself with its length in front
    have hlen := congrArg (fun v : Written => v.bytes.length) hle
    have hpos := length_encodeLen_pos hl
    rw [Written.bytes_append, List.length_append, Written.bytes_ofBytes] at hlen
    omega

/-- An inventory of an item of another kind and an error. -/
def sampleInventory : NetworkMessage Dogecoin.Header Dogecoin.Block :=
  .inv [.unknown 7 (.replicate 32 2), .error]

theorem representable_sampleInventory : sampleInventory.Representable .dogecoin := by
  intro i hi
  simp only [List.mem_cons, List.not_mem_nil, or_false] at hi
  rcases hi with rfl | rfl
  · exact ⟨by decide, by decide, by decide, by decide, by decide, by decide, by decide⟩
  · trivial

theorem writtenAsRead_sampleInventory : sampleInventory.WrittenAsRead :=
  Inventory.errorsLast_iff.2 ⟨[.unknown 7 (.replicate 32 2)], 1, rfl, by simp⟩

theorem decode_inverts_encode_inventory :
    ∃ m w, new .dogecoin Magic.BITCOIN sampleInventory = .ok m ∧ m.consensusEncode .dogecoin = .ok w ∧
      ∀ rest, (codec .dogecoin).consensusDecode.run (w.bytes ++ rest) = .ok (m, rest) := by
  obtain ⟨m, w, hm, hw, -, hback⟩ := decode_inverts_encode .dogecoin Magic.BITCOIN sampleInventory _
    rfl (by decide) writtenAsRead_sampleInventory
  exact ⟨m, w, hm, hw, hback.2 representable_sampleInventory⟩

/-- An address of IPv4 sent with the id of IPv6. -/
def wrappedAddress : NetworkMessage Dogecoin.Header Dogecoin.Block :=
  .addrV2 [⟨0, 0, .ipv6 ⟨[0, 0, 0, 0, 0, 0xFFFF, 0x0102, 0x0304], rfl⟩, 8333⟩]

/-- The decoder refuses an IPv4 address that the encoder wrote with the id of IPv6. -/
theorem decode_refuses_wrappedAddress :
    ∃ p m w, wrappedAddress.consensusEncode .dogecoin = .ok p ∧
      24 + p.bytes.length ≤ MAX_MSG_SIZE ∧ new .dogecoin Magic.BITCOIN wrappedAddress = .ok m ∧
      m.consensusEncode .dogecoin = .ok w ∧
      ∀ rest, (codec .dogecoin).consensusDecode.run w.bytes ≠ .ok (m, rest) := by
  refine ⟨_, _, _, rfl, by decide, rfl, rfl, fun rest h => ?_⟩
  have hrep := representable_of_decode h
  have haddr := hrep _ List.mem_cons_self
  exact haddr.2 rfl

/-! ## What was read is written back -/

/-- The message is encoded without a panic, its encoding is decoded to it again, and in that encoding
the length and the checksum are those of the payload that follows. -/
def Reencodes (c : Chain) (m : RawNetworkMessage c.Header c.Block) : Prop :=
  ∃ w, m.consensusEncode c = .ok w ∧
    (∃ rest, (codec c).consensusDecode.run w.bytes = .ok (m, rest)) ∧
    leNat ((w.bytes.drop 16).take 4) = (w.bytes.drop 24).length ∧
    (w.bytes.drop 20).take 4 = (sha2Checksum (w.bytes.drop 24)).toList

/-- The command that is received. -/
def wireCommand (bs : Bytes) : CommandString := .ofBytes ((bs.drop 4).take 12)

/-- The payload that is received. -/
def wirePayload (bs : Bytes) : Bytes := (bs.drop 24).take (leNat ((bs.drop 16).take 4))

/-- The command received is a known one, no byte of its payload is left over, and the bytes of the
payload that the encoder would write differently, if there are any, do not show in the checksum. -/
def CanonicalOnWire (c : Chain) (bs : Bytes) : Prop :=
  ∃ k : Command, (wireCommand bs).val = k.text ∧
    ∃ written, k.Rewritten c written (wirePayload bs) ∧
      sha2Checksum written = sha2Checksum (wirePayload bs)

theorem wire_frame (magic : Magic) {command raw : Bytes} {payloadLen : UInt32}
    (checksum : U8Array 4) (rest : Bytes) (hcmd : command.length = 12)
    (hlen : payloadLen.toNat = raw.length) :
    wireCommand (frame magic command payloadLen checksum raw ++ rest) = .ofBytes command ∧
      wirePayload (frame magic command payloadLen checksum raw ++ rest) = raw := by
  rw [frame_append]
  obtain ⟨hcmdField, -⟩ := drop_frame magic payloadLen checksum (raw ++ rest) hcmd
  obtain ⟨hlenField, -, hpayloadField⟩ := fields_frame magic payloadLen checksum (raw ++ rest) hcmd
  constructor
  · rw [wireCommand, hcmdField, List.take_left' hcmd]
  · rw [wirePayload, hlenField, hpayloadField, hlen, List.take_left]

/-- When a message with a known command is written as it was read. -/
theorem reencodes_message_iff {k : Command} {q : k.Payload c} {magic : Magic} {raw : Bytes}
    {v : Written} (hv : (k.codec c).consensusEncode q = .ok v)
    (hmax : 24 + raw.length ≤ MAX_MSG_SIZE) :
    Reencodes c ⟨magic, k.message c q, UInt32.ofNat raw.length, sha2Checksum raw⟩ ↔
      v.bytes.length = raw.length ∧ sha2Checksum v.bytes = sha2Checksum raw ∧
        ∃ r, (k.codec c).consensusDecodeFromFiniteReader.run v.bytes = .ok (q, r) := by
  have hcmd := k.length_padded_text
  obtain ⟨hlenField, hsumField, hpayloadField⟩ :=
    fields_frame magic (UInt32.ofNat raw.length) (sha2Checksum raw) v.bytes hcmd
  rw [UInt32.toNat_ofNat_of_lt' (lt_of_le_maxMsgSize hmax)] at hlenField
  constructor
  · rintro ⟨w, hw, ⟨rest, hdec⟩, hlen, hsum⟩
    obtain ⟨v', hv', rfl⟩ := Command.consensusEncode_raw_iff.1 hw
    obtain rfl := Outcome.ok.inj (hv.symm.trans hv')
    dsimp only at hdec hlen hsum
    rw [hlenField, hpayloadField] at hlen
    rw [hsumField, hpayloadField] at hsum
    refine ⟨hlen.symm, (U8Array.ext hsum).symm, ?_⟩
    obtain ⟨cmd, raw', hmax', hlen', -, hpayload, hframe⟩ := run_consensusDecode_iff.1 hdec
    dsimp only at hlen' hpayload hframe
    rw [frame_append] at hframe
    obtain ⟨hpad, hv⟩ := frame_inj hcmd cmd.length_eq hframe
    -- the length that is read again is that of the whole payload
    have hraw' : raw.length = raw'.length := by
      have h := congrArg UInt32.toNat hlen'
      rwa [UInt32.toNat_ofNat_of_lt' (lt_of_le_maxMsgSize hmax),
        UInt32.toNat_ofNat_of_lt' (lt_of_le_maxMsgSize hmax')] at h
    have hrest : rest = [] := by
      have h := congrArg List.length hv
      rw [List.length_append] at h
      exact List.length_eq_zero_iff.1 (by omega)
    rw [hrest, List.append_nil] at hv
    rw [← hpad, k.padded_text, k.decodePayload_text, NetworkMessage.read_eq_ok_iff, ← hv] at hpayload
    obtain ⟨q', r, hr, hq⟩ := hpayload
    obtain rfl := k.message_injective hq
    exact ⟨r, hr⟩
  · rintro ⟨hlen, hsum, r, hr⟩
    refine ⟨_, Command.consensusEncode_raw_iff.2 ⟨v, hv, rfl⟩, ⟨[], ?_⟩, ?_, ?_⟩
    · have hrun := Command.run_consensusDecode_raw magic (by rwa [hlen]) hr []
      rwa [List.append_nil, hlen, hsum] at hrun
    · dsimp only
      rw [hlenField, hpayloadField, hlen]
    · dsimp only
      rw [hsumField, hpayloadField, hsum]

/-- A message with an unknown command is never written as it was read: the length in front of its
payload makes it longer, if its command is encoded at all. -/
theorem not_reencodes_unknown {cmd : CommandString} {magic : Magic} {raw : Bytes}
    (hmax : 24 + raw.length ≤ MAX_MSG_SIZE) :
    ¬ Reencodes c ⟨magic, .unknown cmd raw, UInt32.ofNat raw.length, sha2Checksum raw⟩ := by
  rintro ⟨w, hw, -, hlen, -⟩
  obtain ⟨cmd', p, hcmd, hle, hp, rfl⟩ := consensusEncode_eq_ok_iff.1 hw
  obtain ⟨l, hl, rfl⟩ := consensusEncodeWithSize_eq_ok_iff.1 hp
  obtain ⟨hlenField, -, hpayloadField⟩ := fields_frame magic (UInt32.ofNat raw.length)
    (sha2Checksum raw) (l ++ Written.ofBytes raw).bytes (CommandString.length_padded hle)
  have hpos := length_encodeLen_pos hl
  dsimp only at hlen
  rw [hlenField, hpayloadField, UInt32.toNat_ofNat_of_lt' (lt_of_le_maxMsgSize hmax),
    Written.bytes_append, List.length_append, Written.bytes_ofBytes] at hlen
  omega

/-- A message that was accepted is written back as it was read exactly if it was canonical. -/
theorem reencodes_iff_canonical (c : Chain) (bs rest : Bytes) (m : RawNetworkMessage c.Header c.Block)
    (h : (codec c).consensusDecode.run bs = .ok (m, rest)) :
    m.Reencodes c ↔ CanonicalOnWire c bs := by
  obtain ⟨cmd, raw, hmax, hlen, hsum, hpayload, rfl⟩ := run_consensusDecode_iff.1 h
  obtain ⟨magic, payload, payloadLen, checksum⟩ := m
  dsimp only at hlen hsum hpayload h ⊢
  subst hlen hsum
  have hnat : (UInt32.ofNat raw.length).toNat = raw.length :=
    UInt32.toNat_ofNat_of_lt' (lt_of_le_maxMsgSize hmax)
  obtain ⟨hcommand, hraw⟩ := wire_frame magic (sha2Checksum raw) rest cmd.length_eq hnat
  unfold CanonicalOnWire
  rw [hcommand, hraw]
  rcases NetworkMessage.of_decodePayload hpayload with ⟨k, q, r, htext, rfl, hq⟩ | ⟨hne, rfl⟩
  · obtain ⟨v, hv, hback⟩ := (k.laws c).readsBack raw q r hq
    rw [reencodes_message_iff hv hmax]
    constructor
    · rintro ⟨hlength, hsum, hr⟩
      exact ⟨k, htext, v.bytes, (hback v.bytes).2 ⟨rfl, hlength, hr⟩, hsum⟩
    · rintro ⟨k', htext', written, hwritten, hsum⟩
      obtain rfl := Command.text_injective (htext.symm.trans htext')
      obtain ⟨rfl, hlength, hr⟩ := (hback written).1 hwritten
      exact ⟨hlength, hsum, hr⟩
  · constructor
    · intro hre
      exact absurd hre (not_reencodes_unknown hmax)
    · rintro ⟨k, htext, -⟩
      exact absurd htext (hne k)

/-- A ping. -/
def pingBytes : Bytes :=
  [0xF9, 0xBE, 0xB4, 0xD9] ++ ([0x70, 0x69, 0x6E, 0x67, 0, 0, 0, 0, 0, 0, 0, 0] ++
    ([8, 0, 0, 0] ++ ([0x25, 0x02, 0xFA, 0x94] ++ [1, 2, 3, 4, 5, 6, 7, 8])))

theorem reencodes_iff_canonical_ping :
    ∃ m, (codec .dogecoin).consensusDecode.run pingBytes = .ok (m, []) ∧
      m.payload = .ping 0x0807060504030201 ∧ m.Reencodes .dogecoin := by
  have hsum : sha2Checksum [1, 2, 3, 4, 5, 6, 7, 8] = ⟨[0x25, 0x02, 0xFA, 0x94], rfl⟩ := by decide +kernel
  have hread : u64.consensusDecodeFromFiniteReader.run [1, 2, 3, 4, 5, 6, 7, 8] =
      .ok (0x0807060504030201, []) := rfl
  have hrun : (codec .dogecoin).consensusDecode.run pingBytes =
      .ok (⟨Magic.BITCOIN, .ping 0x0807060504030201, 8, sha2Checksum [1, 2, 3, 4, 5, 6, 7, 8]⟩, []) := by
    refine run_consensusDecode_iff.2 ⟨⟨[0x70, 0x69, 0x6E, 0x67, 0, 0, 0, 0, 0, 0, 0, 0], rfl⟩,
      [1, 2, 3, 4, 5, 6, 7, 8], by decide, rfl, rfl,
      (Command.decodePayload_text .ping _).trans (NetworkMessage.read_eq_ok_iff.2 ⟨_, _, hread, rfl⟩), ?_⟩
    rw [hsum]
    rfl
  refine ⟨_, hrun, rfl, ?_⟩
  rw [reencodes_iff_canonical .dogecoin pingBytes [] _ hrun]
  exact ⟨.ping, by decide, [1, 2, 3, 4, 5, 6, 7, 8], ⟨rfl, 0x0807060504030201, hread⟩, rfl⟩

/-- A message with the command `foo` and the payload `07`. -/
def unknownBytes : Bytes :=
  [0xF9, 0xBE, 0xB4, 0xD9] ++ ([0x66, 0x6F, 0x6F, 0, 0, 0, 0, 0, 0, 0, 0, 0] ++
    ([1, 0, 0, 0] ++ ([0xB6, 0xD5, 0x8D, 0xFA] ++ [7])))

/-- The payload of an unknown message is written with a length that was not read. -/
theorem unknown_is_not_reencoded :
    ∃ m, (codec .dogecoin).consensusDecode.run unknownBytes = .ok (m, []) ∧
      ¬ m.Reencodes .dogecoin := by
  have hsum : sha2Checksum [7] = ⟨[0xB6, 0xD5, 0x8D, 0xFA], rfl⟩ := by decide +kernel
  have hrun : (codec .dogecoin).consensusDecode.run unknownBytes =
      .ok (⟨Magic.BITCOIN, .unknown ⟨"foo"⟩ [7], 1, sha2Checksum [7]⟩, []) := by
    refine run_consensusDecode_iff.2 ⟨⟨[0x66, 0x6F, 0x6F, 0, 0, 0, 0, 0, 0, 0, 0, 0], rfl⟩, [7],
      by decide, rfl, rfl, Command.decodePayload_unknown (s := "foo") (by decide) [7], ?_⟩
    rw [hsum]
    rfl
  have hmax : 24 + [(7 : UInt8)].length ≤ MAX_MSG_SIZE := by decide
  exact ⟨_, hrun, not_reencodes_unknown hmax⟩

end RawNetworkMessage

end RustDogecoin
