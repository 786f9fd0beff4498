import DnsWrapper.EthFrame
import DnsWrapper.EthMappings
import DnsWrapper.Runs

/-! The raw sockets of the server and the table they fill, over any sequence of captured
frames: when a client's address leads to the machine that sent from it last. -/
namespace DnsWrapper.Dns
open ByteReader NetCommon Net Bookkeeping
open Runs (run)

/- One call of the raw receive callback: the socket, what arrived on it, the clock, and what
   the unions of a fresh InPacket hold. -/
structure Capture where
  socket : Nat
  frame : List UInt8
  now : Int
  ipSource : IpAddress
  ipDestination : IpAddress

/- The part of DnsServer that the raw sockets use. -/
structure RawServer where
  recvBuffers : Nat → List UInt8
  ethmappings : EthMappings

namespace RawServer

def initial (ethmappings : EthMappings) : RawServer where
  recvBuffers _ := List.replicate packetSzMax 0
  ethmappings := ethmappings

/- What async_receive_from leaves in a buffer: the frame, cut at the size of the buffer, and
   behind it what was there. -/
def fill (buf frame : List UInt8) : List UInt8 :=
  frame.take packetSzMax ++ buf.drop (min frame.length packetSzMax)

/- receiveRawData up to the call of Add: the packet of a DNS query. The byte with the QR bit
   is read as soon as two bytes of payload are there. -/
def readQuery (order : ByteOrder) (dnsPort : UInt16) (ipSource ipDestination : IpAddress) :
    Reader Code (Option InPacket) := do
  let (ipacket, _) ← InPacket.read order ipSource ipDestination
  if ipacket.destinationPort ≠ dnsPort then pure none
  else do
    let pos ← here
    let size ← nominal
    if pos + 2 > size then pure none
    else do
      let b ← peek 2
      if b &&& 0x80 ≠ 0 then pure none else pure (some ipacket)

/- receive(SocketData*) and receiveRawData, which is called with ipv4 = true for every frame.
   The output is what Add returned, if it was called; a read behind the buffer is undefined. -/
def receive (order : ByteOrder) (dnsPort : UInt16) (s : RawServer) (c : Capture) :
    Option (RawServer × Option Bool) :=
  let buf := fill (s.recvBuffers c.socket) c.frame
  let n := min c.frame.length packetSzMax
  let s := { s with recvBuffers := Function.update s.recvBuffers c.socket buf }
  match (readQuery order dnsPort c.ipSource c.ipDestination).run buf n 0 with
  | .error (.failed _) => some (s, none)
  | .error _ => none
  | .ok (none, _) => some (s, none)
  | .ok (some ipacket, _) =>
    let (ethmappings, added) := s.ethmappings.add c.now ipacket.ethSource true ipacket.ipSource
    some ({ s with ethmappings }, some added)

/- The look-up of processRequest: the union starts as zeros. -/
def lookUpClient (s : RawServer) (a : WireAddress) : Option MacMappingRecord :=
  s.ethmappings.lookUp (a.store ⟨Vector.replicate 16 0⟩) a.isV4

/-- Each step leaves the table as it is or makes one call of Add with ipv4 = true. -/
theorem receive_cases {order : ByteOrder} {dnsPort : UInt16} {s s' : RawServer} {c : Capture}
    {out : Option Bool} (h : receive order dnsPort s c = some (s', out)) :
    s'.ethmappings = s.ethmappings ∨
      ∃ ethaddress ipaddress,
        s'.ethmappings = (s.ethmappings.add c.now ethaddress true ipaddress).1 := by
  rw [receive] at h
  split at h
  · cases h
    exact .inl rfl
  · cases h
  · cases h
    exact .inl rfl
  · rename_i ipacket _ _
    cases h
    exact .inr ⟨ipacket.ethSource, ipacket.ipSource, rfl⟩

theorem allIpv4_receive {order : ByteOrder} {dnsPort : UInt16} (s : RawServer) (c : Capture)
    (s' : RawServer) (out : Option Bool) (hs : s.ethmappings.AllIpv4)
    (h : receive order dnsPort s c = some (s', out)) : s'.ethmappings.AllIpv4 := by
  obtain heq | ⟨ethaddress, ipaddress, heq⟩ := receive_cases h
  · rw [heq]
    exact hs
  · rw [heq]
    exact EthMappings.allIpv4_add hs c.now ethaddress ipaddress

theorem allIpv4_run {order : ByteOrder} {dnsPort : UInt16} {m : EthMappings} (hm : m.count = 0)
    {cs : List Capture} {s : RawServer} {outs : List (Option Bool)}
    (h : run (receive order dnsPort) (initial m) cs = some (s, outs)) :
    s.ethmappings.AllIpv4 := by
  have hempty : (initial m).ethmappings.AllIpv4 := by
    intro r hr
    rw [initial, EthMappings.live, hm] at hr
    cases hr
  exact Runs.run_invariant allIpv4_receive hempty h

/- A frame stands whole at the front of the buffer, up to its payload's third byte at least. -/
theorem exists_fill (buf : List UInt8) (f : Frame) :
    ∃ post, fill buf f.bytes = [] ++ f.headers ++ post ∧
      (2 < f.payload.length → post[2]? = f.payload[2]?) := by
  have hlen := f.length_headers_le
  refine ⟨f.payload.take (packetSzMax - f.headers.length) ++
    buf.drop (min f.bytes.length packetSzMax), ?_, ?_⟩
  · rw [fill, Frame.bytes, List.take_append, List.take_of_length_le (by rw [packetSzMax]; omega)]
    simp
  · intro h
    have hcut : 2 < packetSzMax - f.headers.length := by
      rw [packetSzMax]
      omega
    rw [List.getElem?_append_left (by rw [List.length_take]; omega), List.getElem?_take, if_pos hcut]

theorem readQuery_query (order : ByteOrder) {dnsPort : UInt16} (src dst : IpAddress) {f : Frame}
    (hf : f.IsQuery dnsPort) (buf : List UInt8) :
    (readQuery order dnsPort src dst).run (fill buf f.bytes) (min f.bytes.length packetSzMax) 0 =
      .ok (some (f.packet src dst), f.headers.length) := by
  obtain ⟨hport, b, hb, hqr⟩ := hf
  obtain ⟨hpay, _⟩ := List.getElem?_eq_some_iff.mp hb
  obtain ⟨post, hfill, hpost⟩ := exists_fill buf f
  have hlen := f.length_headers_le
  have hn : f.headers.length + 2 < min f.bytes.length packetSzMax := by
    rw [Frame.bytes, List.length_append, packetSzMax]
    omega
  have hread := yields_read order src dst f [] post (min f.bytes.length packetSzMax) (by
    rw [List.length_nil]
    omega)
  have hpeek : (peek 2 : Reader Code UInt8).run ([] ++ f.headers ++ post)
      (min f.bytes.length packetSzMax) f.headers.length = .ok (b, f.headers.length) := by
    have hget : ([] ++ f.headers ++ post)[f.headers.length + 2]? = some b := by
      rw [List.nil_append, List.getElem?_append_right (by omega), Nat.add_sub_cancel_left,
        hpost hpay, hb]
    simp only [peek, hget]
  rw [List.length_nil, Nat.zero_add] at hread
  rw [hfill, readQuery, bind_of_ok hread]
  have hdest : (f.packet src dst).destinationPort = dnsPort := hport
  simp only [hdest, ne_eq, not_true_eq_false, ↓reduceIte, bind_apply, here, nominal]
  rw [if_neg (by omega), bind_apply, hpeek]
  simp [hqr, pure_apply]

/-- A query reaches Add with the frame's source addresses. -/
theorem receive_query (order : ByteOrder) {dnsPort : UInt16} (s : RawServer) {c : Capture}
    {f : Frame} (hc : c.frame = f.bytes) (hf : f.IsQuery dnsPort) :
    ∃ recvBuffers, receive order dnsPort s c =
      some ({ recvBuffers, ethmappings := (s.ethmappings.add c.now f.ethSource true
                (f.ip.source.store c.ipSource)).1 },
        some (s.ethmappings.add c.now f.ethSource true (f.ip.source.store c.ipSource)).2) := by
  have hrun := readQuery_query order c.ipSource c.ipDestination hf (s.recvBuffers c.socket)
  rw [receive, hc]
  simp only [hrun]
  exact ⟨_, rfl⟩

/- The machine found for the frame's source address is the one that sent the frame. -/
def Found (s : RawServer) (f : Frame) : Prop :=
  ∃ r, s.lookUpClient f.ip.source = some r ∧ r.ethaddress = f.ethSource

/-- After any frames, the machine that a query's source address leads to is the one that sent
the query exactly when the query came over IPv4 and no record in front of the slot of this
machine has the address. -/
theorem found_iff {order : ByteOrder} {dnsPort : UInt16} {m : EthMappings} (hm : m.count = 0)
    {cs : List Capture} {s : RawServer} {outs : List (Option Bool)}
    (hrun : run (receive order dnsPort) (initial m) cs = some (s, outs)) {c : Capture} {f : Frame}
    (hc : c.frame = f.bytes) (hf : f.IsQuery dnsPort) {s' : RawServer}
    (hstep : receive order dnsPort s c = some (s', some true)) :
    s'.Found f ↔ f.ip.source.isV4 = true ∧
      s.ethmappings.ClearBefore f.ethSource (f.ip.source.store ⟨Vector.replicate 16 0⟩) := by
  obtain ⟨bufs, heq⟩ := receive_query order s hc hf
  rw [hstep] at heq
  have hadd := (Prod.mk.inj (Option.some.inj heq)).2
  have hs' := (Prod.mk.inj (Option.some.inj heq)).1
  cases hsource : f.ip.source with
  | v4 octets =>
    rw [hsource] at hadd hs'
    have hword : ((WireAddress.v4 octets).store ⟨Vector.replicate 16 0⟩).ipv4 =
        ((WireAddress.v4 octets).store c.ipSource).ipv4 := by
      obtain ⟨p, q, r, t, rfl⟩ := exists_four octets
      rw [WireAddress.store, WireAddress.store, IpAddress.ipv4_setWord, IpAddress.ipv4_setWord]
    rw [← EthMappings.lookUp_add_iff (Option.some.inj hadd).symm hword, Found, hsource, hs',
      lookUpClient]
    simp [WireAddress.isV4]
  | v6 octets =>
    have hall := allIpv4_receive s c s' _ (allIpv4_run hm hrun) hstep
    apply iff_of_false
    · rintro ⟨r, hr, _⟩
      rw [hsource, lookUpClient, WireAddress.isV4, EthMappings.lookUp_ipv6 hall] at hr
      cases hr
    · rintro ⟨hv4, _⟩
      cases hv4

/- A query for a. A IN from port 40000 of this machine at this address. -/
def askedFrom (machine : UInt8) (octets : Vector UInt8 4) : Frame where
  ethDestination := ⟨#v[2, 0, 0, 0, 0, 0]⟩
  ethSource := ⟨#v[2, 0, 0, 0, 0, machine]⟩
  tags := []
  tags_le := Nat.zero_le _
  ip := .v4 ⟨#v[0, 0, 47, 0, 0, 0, 0, 64], #v[0, 0], octets, #v[10, 0, 0, 1], [], Nat.zero_le _⟩
  sourcePort := 40000
  destinationPort := 53
  udpLength := 27
  udpChecksum := 0
  payload := [0, 7, 1, 0, 0, 1, 0, 0, 0, 0, 0, 0, 1, 97, 0, 0, 1, 0, 1]

theorem askedFrom_isQuery (machine : UInt8) (octets : Vector UInt8 4) :
    (askedFrom machine octets).IsQuery 53 := ⟨rfl, 1, rfl, rfl⟩

def captured (f : Frame) (now : Int) : Capture :=
  ⟨0, f.bytes, now, ⟨Vector.replicate 16 0⟩, ⟨Vector.replicate 16 0⟩⟩

def emptyMappings : EthMappings := .noMachines

def movedAddress : Vector UInt8 4 := sampleHost

def otherAddress : Vector UInt8 4 := #v[10, 0, 0, 10]

/- The table after the query of machine 1. -/
def firstSeen : EthMappings :=
  (emptyMappings.add 100 (askedFrom 1 movedAddress).ethSource true
    ((askedFrom 1 movedAddress).ip.source.store ⟨Vector.replicate 16 0⟩)).1

theorem firstSeen_run : ∃ bufs, run (receive .little 53) (initial emptyMappings)
    [captured (askedFrom 1 movedAddress) 100] = some (⟨bufs, firstSeen⟩, [some true]) := by
  obtain ⟨bufs, h⟩ := receive_query .little (initial emptyMappings)
    (c := captured (askedFrom 1 movedAddress) 100) rfl (askedFrom_isQuery 1 movedAddress)
  refine ⟨bufs, ?_⟩
  rw [run, h]
  rfl

theorem firstSeen_slot : firstSeen.slot (askedFrom 2 otherAddress).ethSource = 1 := by
  decide +kernel

theorem firstSeen_clearBefore : firstSeen.ClearBefore (askedFrom 2 otherAddress).ethSource
    ((askedFrom 2 otherAddress).ip.source.store ⟨Vector.replicate 16 0⟩) := by
  intro j hj r hr
  rw [firstSeen_slot] at hj
  have hzero : j = 0 := by omega
  rw [hzero] at hr
  have hword : (firstSeen.live[0]?.map fun x => x.ipaddress.ipv4) ≠
      some ((askedFrom 2 otherAddress).ip.source.store ⟨Vector.replicate 16 0⟩).ipv4 := by
    decide +kernel
  rw [hr, Option.map_some] at hword
  exact fun h => hword (congrArg some h.2)

/- Machine 2 asks from an address of its own after machine 1 has asked. -/
theorem found_iff_second_machine : ∃ s s',
    run (receive .little 53) (initial emptyMappings) [captured (askedFrom 1 movedAddress) 100] =
      some (s, [some true]) ∧
    receive .little 53 s (captured (askedFrom 2 otherAddress) 200) = some (s', some true) ∧
    s.ethmappings.ClearBefore (askedFrom 2 otherAddress).ethSource
      ((askedFrom 2 otherAddress).ip.source.store ⟨Vector.replicate 16 0⟩) ∧
    s'.Found (askedFrom 2 otherAddress) := by
  obtain ⟨bufs, hrun⟩ := firstSeen_run
  obtain ⟨bufs', h'⟩ := receive_query .little ⟨bufs, firstSeen⟩
    (c := captured (askedFrom 2 otherAddress) 200) rfl (askedFrom_isQuery 2 otherAddress)
  refine ⟨_, _, hrun, h', firstSeen_clearBefore, ?_⟩
  exact (found_iff rfl hrun rfl (askedFrom_isQuery 2 otherAddress) h').mpr
    ⟨rfl, firstSeen_clearBefore⟩

/-- The address 10.0.0.9 moves from machine 1 to machine 2: both queries are recorded, and
the address still leads to machine 1. -/
theorem moved_address_not_found : emptyMappings.count = 0 ∧
    (askedFrom 2 movedAddress).IsQuery 53 ∧ ∃ s s' outs,
    run (receive .little 53) (initial emptyMappings) [captured (askedFrom 1 movedAddress) 100] =
      some (s, outs) ∧
    receive .little 53 s (captured (askedFrom 2 movedAddress) 200) = some (s', some true) ∧
    ¬ s'.Found (askedFrom 2 movedAddress) := by
  obtain ⟨bufs, hrun⟩ := firstSeen_run
  obtain ⟨bufs', h'⟩ := receive_query .little ⟨bufs, firstSeen⟩
    (c := captured (askedFrom 2 movedAddress) 200) rfl (askedFrom_isQuery 2 movedAddress)
  refine ⟨rfl, askedFrom_isQuery 2 movedAddress, _, _, [some true], hrun, h', ?_⟩
  rintro ⟨r, hr, hmac⟩
  have hold : some (askedFrom 1 movedAddress).ethSource = some r.ethaddress :=
    congrArg (Option.map MacMappingRecord.ethaddress) hr
  rw [hmac] at hold
  exact absurd hold (by decide)

end RawServer

end DnsWrapper.Dns
