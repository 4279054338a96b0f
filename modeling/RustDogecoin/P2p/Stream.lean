import RustDogecoin.Consensus.Stable
import RustDogecoin.Lib.Channel
import RustDogecoin.P2p.RoundTrip

/-!
# Messages over a connection

A node makes messages with `RawNetworkMessage::new` and writes them to a connection; the peer calls
`RawNetworkMessage::consensus_decode` on it again and again.  However the bytes are cut into pieces and however the
two take turns, the peer gets the messages that were sent, in order, and its decoder never returns an error but for
the end of the input while the rest of a message is on its way (`messages_arrive`).
-/

namespace RustDogecoin

namespace RawNetworkMessage

variable {c : Chain}

/-- A message that a node makes of a payload, and its encoding. -/
def Sendable (c : Chain) (m : RawNetworkMessage c.Header c.Block) (bytes : Bytes) : Prop :=
  ∃ magic payload p w, payload.consensusEncode c = .ok p ∧ 24 + p.bytes.length ≤ MAX_MSG_SIZE ∧
    payload.WrittenAsRead ∧ payload.Representable c ∧ new c magic payload = .ok m ∧
    m.consensusEncode c = .ok w ∧ bytes = w.bytes

theorem length_frame_pos {magic : Magic} {command payload : Bytes} {payloadLen : UInt32} {checksum : U8Array 4}
    (h : command.length = 12) : frame magic command payloadLen checksum payload ≠ [] := by
  intro hnil
  have hlen : (frame magic command payloadLen checksum payload).length = 24 + payload.length := length_frame h
  rw [hnil, List.length_nil] at hlen
  omega

/-- What is sent is read back, whatever follows. -/
theorem decodes (c : Chain) : Channel.Decodes (Sendable c) (codec c).consensusDecode := by
  rintro m bytes ⟨magic, payload, p, w, hp, hmax, hread, hrep, hm, hw, rfl⟩
  rcases Command.exists_message_eq payload with ⟨k, q, rfl⟩ | ⟨cmd, raw, rfl⟩
  · have hcodec := hp
    rw [k.consensusEncode_message] at hcodec
    have hlen := (k.laws c).counts q p hcodec
    rw [new, hp, Outcome.ok_bind, hlen, Outcome.require_of (lt_of_le_maxMsgSize hmax)] at hm
    obtain rfl := Outcome.ok.inj hm
    obtain ⟨v, hv, rfl⟩ := Command.consensusEncode_raw_iff.1 hw
    obtain rfl := Outcome.ok.inj (hcodec.symm.trans hv)
    refine ⟨length_frame_pos k.length_padded_text, fun rest => ?_⟩
    obtain ⟨r, hrun⟩ := ((k.laws c).readBack_iff q p hcodec).2 ⟨hrep, hread⟩
    exact Command.run_consensusDecode_raw magic hmax hrun rest
  · exact hread.elim

/-- In every state that sending, delivering pieces and decoding lead to, the received messages are the first that
were sent, and the decoder returns another one or is at the end of the input; and when all bytes are delivered and
it is at the end, all messages have been received. -/
theorem messages_arrive (c : Chain) [c.header.Stable] [c.block.Stable]
    (s : Channel.State (RawNetworkMessage c.Header c.Block))
    (h : Channel.Reachable (Sendable c) (codec c).consensusDecode s) :
    s.received <+: s.sent ∧
      ((codec c).consensusDecode.run s.buffer = .err .io ∨
        ∃ m rest, (codec c).consensusDecode.run s.buffer = .ok (m, rest)) ∧
      (s.wire = [] → (codec c).consensusDecode.run s.buffer = .err .io → s.received = s.sent) := by
  have hstable : (codec c).consensusDecode.Stable .io := inferInstance
  have hnil : (codec c).consensusDecode.run [] = .err .io := rfl
  have hinv := Channel.Reachable.inv hstable hnil (decodes c) h
  exact ⟨hinv.received_isPrefix, hinv.waits_or_returns hstable hnil (decodes c), hinv.received_eq_sent (decodes c)⟩

theorem exists_sendable_ping :
    ∃ m bytes, new .dogecoin Magic.BITCOIN (.ping 7) = .ok m ∧ Sendable .dogecoin m bytes :=
  ⟨_, _, rfl, Magic.BITCOIN, .ping 7, _, _, rfl, by decide, trivial, trivial, rfl, rfl, rfl⟩

theorem exists_sendable_sampleInventory :
    ∃ m bytes, new .dogecoin Magic.BITCOIN sampleInventory = .ok m ∧ Sendable .dogecoin m bytes :=
  ⟨_, _, rfl, Magic.BITCOIN, sampleInventory, _, _, rfl, by decide, writtenAsRead_sampleInventory,
    representable_sampleInventory, rfl, rfl, rfl⟩

/-- A ping, of which seven bytes are delivered before an inventory is sent after it. -/
theorem messages_arrive_sample : ∃ ping inventory s, new .dogecoin Magic.BITCOIN (.ping 7) = .ok ping ∧
    new .dogecoin Magic.BITCOIN sampleInventory = .ok inventory ∧
    Channel.Reachable (Sendable .dogecoin) (codec .dogecoin).consensusDecode s ∧
    s.received = [ping, inventory] ∧ s.received = s.sent := by
  obtain ⟨ping, w, hping, hw⟩ := exists_sendable_ping
  obtain ⟨inventory, v, hinventory, hv⟩ := exists_sendable_sampleInventory
  have hsent : Channel.Reachable (Sendable .dogecoin) (codec .dogecoin).consensusDecode
      ⟨[ping, inventory], w.drop 7 ++ v, w.take 7, []⟩ :=
    .tail (.tail (.single (.send hw)) (.deliver _ 7)) (.send hv)
  have hdelivered : Channel.Reachable (Sendable .dogecoin) (codec .dogecoin).consensusDecode
      ⟨[ping, inventory], [], w ++ (v ++ []), []⟩ := by
    have h := Relation.ReflTransGen.tail hsent (.deliver _ (w.drop 7 ++ v).length)
    rwa [List.drop_length, List.take_length, ← List.append_assoc, List.take_append_drop,
      ← List.append_nil v] at h
  have hfirst : Channel.Reachable (Sendable .dogecoin) (codec .dogecoin).consensusDecode
      ⟨[ping, inventory], [], v ++ [], [ping]⟩ :=
    .tail hdelivered (.receive ((decodes .dogecoin _ _ hw).2 _))
  have hstate : Channel.Reachable (Sendable .dogecoin) (codec .dogecoin).consensusDecode
      ⟨[ping, inventory], [], [], [ping, inventory]⟩ :=
    .tail hfirst (.receive ((decodes .dogecoin _ _ hv).2 _))
  exact ⟨ping, inventory, _, hping, hinventory, hstate, rfl, (messages_arrive .dogecoin _ hstate).2.2 rfl rfl⟩

end RawNetworkMessage

end RustDogecoin
