import RustDogecoin.P2p.Address

/-!
# Socket addresses in address messages

`Address::new` writes an IPv4 address as the IPv4-mapped IPv6 address, and `socket_addr` reads one
back wherever `Ipv6Addr::to_ipv4` does.  That function also accepts the IPv4-compatible addresses,
whose first six words are zeros, so these are the addresses that do not come back.
-/

namespace RustDogecoin

/-! ## Socket addresses of the standard library -/

structure SocketAddrV4 where
  ip : Ipv4Addr
  port : UInt16
  deriving DecidableEq

structure SocketAddrV6 where
  ip : Ipv6Addr
  port : UInt16
  flowinfo : UInt32
  scopeId : UInt32
  deriving DecidableEq

inductive SocketAddr where
  | v4 (addr : SocketAddrV4)
  | v6 (addr : SocketAddrV6)
  deriving DecidableEq

/-- The kinds of `io::Error` that the conversions return. -/
inductive ErrorKind where
  | addrNotAvailable
  deriving DecidableEq

/-- The first six words of `::ffff:a.b.c.d`. -/
def mappedPrefix : List UInt16 := [0, 0, 0, 0, 0, 0xFFFF]

/-- The first six words of `::a.b.c.d`. -/
def compatiblePrefix : List UInt16 := [0, 0, 0, 0, 0, 0]

/-- `Ipv4Addr::to_ipv6_mapped`. -/
def toIpv6Mapped (ip : Ipv4Addr) : Ipv6Addr :=
  ⟨mappedPrefix ++ [fromBeBytes (ip.toList.take 2), fromBeBytes (ip.toList.drop 2)], rfl⟩

theorem length_lastOctets (ip : Ipv6Addr) : ((ip.1.drop 6).flatMap toBeBytes).length = 4 := by
  rw [length_flatMap_toBeBytes, List.length_drop, ip.2]

/-- The last two words, as octets. -/
def lastOctets (ip : Ipv6Addr) : Ipv4Addr :=
  ⟨(ip.1.drop 6).flatMap toBeBytes, length_lastOctets ip⟩

/-- `Ipv6Addr::to_ipv4`, for IPv4-compatible and for IPv4-mapped addresses. -/
def toIpv4 (ip : Ipv6Addr) : Option Ipv4Addr :=
  if ip.1.take 6 = compatiblePrefix ∨ ip.1.take 6 = mappedPrefix then some (lastOctets ip) else none

namespace Address

/-! ## The conversions -/

/-- Create an address message for a socket. -/
def new (socket : SocketAddr) (services : ServiceFlags) : Address :=
  match socket with
  | .v4 addr => ⟨services, toIpv6Mapped addr.ip, addr.port⟩
  | .v6 addr => ⟨services, addr.ip, addr.port⟩

/-- Extract socket address from an `Address` message. -/
def socketAddr (self : Address) : Outcome ErrorKind SocketAddr :=
  let addr := self.address
  if addr.1.take 3 = ONION then .err .addrNotAvailable
  else match toIpv4 addr with
    | some ipv4 => .ok (.v4 ⟨ipv4, self.port⟩)
    | none => .ok (.v6 ⟨addr, self.port, 0, 0⟩)

/-! ## What comes back -/

theorem lastOctets_toIpv6Mapped (ip : Ipv4Addr) : lastOctets (toIpv6Mapped ip) = ip := by
  have htake : (ip.toList.take 2).length = 2 := by simp
  have hdrop : (ip.toList.drop 2).length = 2 := by simp
  apply U8Array.ext
  show [fromBeBytes (ip.toList.take 2), fromBeBytes (ip.toList.drop 2)].flatMap toBeBytes = _
  rw [List.flatMap_cons, List.flatMap_cons, List.flatMap_nil, List.append_nil,
    toBeBytes_fromBeBytes htake, toBeBytes_fromBeBytes hdrop, List.take_append_drop]

theorem toIpv4_toIpv6Mapped (ip : Ipv4Addr) : toIpv4 (toIpv6Mapped ip) = some ip := by
  have hprefix : (toIpv6Mapped ip).1.take 6 = mappedPrefix := rfl
  rw [toIpv4, if_pos (Or.inr hprefix), lastOctets_toIpv6Mapped]

theorem toIpv4_eq_none_iff {ip : Ipv6Addr} :
    toIpv4 ip = none ↔ ip.1.take 6 ≠ compatiblePrefix ∧ ip.1.take 6 ≠ mappedPrefix := by
  unfold toIpv4
  split_ifs with h
  · simp only [false_iff]
    rintro ⟨hcompatible, hmapped⟩
    exact h.elim hcompatible hmapped
  · simpa using h

theorem socketAddr_of_ne_onion {self : Address} (h : self.address.1.take 3 ≠ ONION) :
    self.socketAddr = match toIpv4 self.address with
      | some ipv4 => .ok (.v4 ⟨ipv4, self.port⟩)
      | none => .ok (.v6 ⟨self.address, self.port, 0, 0⟩) :=
  if_neg h

/-- An IPv4 address is read back from the address that it is mapped to. -/
theorem socketAddr_new_v4 (addr : SocketAddrV4) (services : ServiceFlags) :
    (new (.v4 addr) services).socketAddr = .ok (.v4 addr) := by
  have honion : (new (.v4 addr) services).address.1.take 3 ≠ ONION := by
    show [0, 0, 0] ≠ ONION
    decide
  rw [socketAddr_of_ne_onion honion]
  simp only [new, toIpv4_toIpv6Mapped]

/-- An IPv6 address is read back as it is where neither range is recognised, and without its flow
information and scope. -/
theorem socketAddr_new_v6_eq_iff {addr : SocketAddrV6} (services : ServiceFlags)
    (honion : addr.ip.1.take 3 ≠ ONION) :
    (new (.v6 addr) services).socketAddr = .ok (.v6 addr) ↔
      addr.flowinfo = 0 ∧ addr.scopeId = 0 ∧ toIpv4 addr.ip = none := by
  have hne : (new (.v6 addr) services).address.1.take 3 ≠ ONION := honion
  rw [socketAddr_of_ne_onion hne]
  obtain ⟨ip, port, flowinfo, scopeId⟩ := addr
  cases h : toIpv4 ip with
  | some ipv4 => simp [new, h]
  | none =>
    simp only [new, h, Outcome.ok.injEq, SocketAddr.v6.injEq, SocketAddrV6.mk.injEq, true_and,
      and_true]
    exact and_congr eq_comm eq_comm

end Address

/-- Zero flow information and scope, and neither an OnionCat nor an IPv4-mapped address. -/
def SocketAddr.IsPlain : SocketAddr → Prop
  | .v4 _ => True
  | .v6 addr =>
    addr.flowinfo = 0 ∧ addr.scopeId = 0 ∧ addr.ip.1.take 3 ≠ ONION ∧ addr.ip.1.take 6 ≠ mappedPrefix

/-- An IPv6 address `::a.b.c.d`. -/
def SocketAddr.IsIpv4Compatible : SocketAddr → Prop
  | .v4 _ => False
  | .v6 addr => addr.ip.1.take 6 = compatiblePrefix

namespace Address

/-- The plain socket addresses that come back are the ones that are not IPv4-compatible. -/
theorem socketAddr_new_eq_iff (socket : SocketAddr) (services : ServiceFlags) (h : socket.IsPlain) :
    (new socket services).socketAddr = .ok socket ↔ ¬ socket.IsIpv4Compatible := by
  cases socket with
  | v4 addr => exact iff_of_true (socketAddr_new_v4 addr services) id
  | v6 addr =>
    obtain ⟨hflow, hscope, honion, hmapped⟩ := h
    rw [socketAddr_new_v6_eq_iff services honion, toIpv4_eq_none_iff]
    exact ⟨fun hback => hback.2.2.1, fun hcompatible => ⟨hflow, hscope, hcompatible, hmapped⟩⟩

/-- `2001:db8::1`. -/
theorem socketAddr_new_eq_iff_documentation :
    (new (.v6 ⟨⟨[0x2001, 0xDB8, 0, 0, 0, 0, 0, 1], rfl⟩, 22556, 0, 0⟩) 1).socketAddr =
        .ok (.v6 ⟨⟨[0x2001, 0xDB8, 0, 0, 0, 0, 0, 1], rfl⟩, 22556, 0, 0⟩) ↔
      ¬ SocketAddr.IsIpv4Compatible (.v6 ⟨⟨[0x2001, 0xDB8, 0, 0, 0, 0, 0, 1], rfl⟩, 22556, 0, 0⟩) :=
  socketAddr_new_eq_iff _ 1 (by
    unfold SocketAddr.IsPlain
    decide)

/-- The loopback address `::1` is read back as `0.0.0.1`. -/
theorem socketAddr_new_loopback :
    SocketAddr.IsPlain (.v6 ⟨⟨[0, 0, 0, 0, 0, 0, 0, 1], rfl⟩, 22556, 0, 0⟩) ∧
    (new (.v6 ⟨⟨[0, 0, 0, 0, 0, 0, 0, 1], rfl⟩, 22556, 0, 0⟩) 1).socketAddr =
      .ok (.v4 ⟨⟨[0, 0, 0, 1], rfl⟩, 22556⟩) ∧
    (new (.v6 ⟨⟨[0, 0, 0, 0, 0, 0, 0, 1], rfl⟩, 22556, 0, 0⟩) 1).socketAddr ≠
      .ok (.v6 ⟨⟨[0, 0, 0, 0, 0, 0, 0, 1], rfl⟩, 22556, 0, 0⟩) := by
  refine ⟨?_, by decide, by decide⟩
  unfold SocketAddr.IsPlain
  decide

end Address

end RustDogecoin
