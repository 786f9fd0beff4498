import DnsWrapper.FrameRead
import DnsWrapper.MacTracking

/-! How far receiveRawData looks into its buffer. The byte with the QR bit is the third of the
payload, and the check before it asks for two. -/
namespace DnsWrapper.Dns
open ByteReader ByteWord NetCommon Net InPacket Bookkeeping

/- The big-endian word at an offset of a frame. -/
def wordAt (d : List UInt8) (p : Nat) : UInt16 := join16 (d.getD p 0) (d.getD (p + 1) 0)

/- VLAN tags are looked for twice, from offset 12 on. -/
def tagCount (d : List UInt8) : Nat :=
  if isVlan (wordAt d 12) then if isVlan (wordAt d 16) then 2 else 1 else 0

def ipStart (d : List UInt8) : Nat := ethHdrSize + vlanHdrSize * tagCount d

/- Where the UDP header of a frame starts: behind an IPv4 header of its own length or an IPv6
   header, if it is IP and carries UDP. -/
def udpStart (d : List UInt8) : Option Nat :=
  let ip := ipStart d
  let b := d.getD ip 0
  if wordAt d (ip - 2) = ethPIp then
    if b &&& 0xf0 = 0x40 ∧ 20 ≤ ((b &&& 0x0f) * 4).toNat ∧ d.getD (ip + 9) 0 = ipProtoUdp then
      some (ip + ((b &&& 0x0f) * 4).toNat)
    else none
  else if wordAt d (ip - 2) = ethPIpv6 ∧ d.getD (ip + 6) 0 = ipProtoUdp then some (ip + ipv6HdrSize)
  else none

/-- A UDP frame to this port with a payload of exactly two bytes. -/
def TwoBytePayload (d : List UInt8) (dnsPort : UInt16) : Prop :=
  ∃ u, udpStart d = some u ∧ wordAt d (u + 2) = dnsPort ∧ d.length = u + udpHdrSize + 2

section Ends
variable {d : List UInt8} {p : Nat}

theorem ends_readEth {Q : Nat → Prop} :
    (Ends d p readEth fun _ q => Q q) ↔ p + 6 ≤ d.length ∧ Q (p + 6) := by
  simp only [readEth, byte, ends_bind, ends_peek, ends_skip, ends_pure, Nat.add_zero]
  constructor
  · rintro ⟨_, _, _, _, _, h, hQ⟩
    exact ⟨h, hQ⟩
  · rintro ⟨h, hQ⟩
    exact ⟨by omega, by omega, by omega, by omega, by omega, by omega, hQ⟩

theorem ends_readEthProtocol {Q : UInt16 → Nat → Prop} :
    Ends d 12 readEthProtocol Q ↔
      ipStart d ≤ d.length ∧ Q (wordAt d (ipStart d - 2)) (ipStart d) := by
  simp only [readEthProtocol, vlanMaxDepth, readVlan, ends_bind, ends_vreadU16, ends_ite,
    ends_validate, ends_skip, ends_pure, ipStart, tagCount, ethHdrSize, vlanHdrSize]
  change _ ∧ (if isVlan (wordAt d 12) = true then _ ∧ _ ∧
    (if isVlan (wordAt d 16) = true then _ ∧ _ ∧ Q (wordAt d 20) 22 else Q (wordAt d 16) 18)
      else Q (wordAt d 12) 14) ↔ _
  split_ifs with hone htwo
  · constructor
    · rintro ⟨_, _, _, _, h, hQ⟩
      exact ⟨h, hQ⟩
    · rintro ⟨h, hQ⟩
      exact ⟨by omega, by omega, by omega, by omega, h, hQ⟩
  · constructor
    · rintro ⟨_, _, h, hQ⟩
      exact ⟨h, hQ⟩
    · rintro ⟨h, hQ⟩
      exact ⟨by omega, by omega, h, hQ⟩
  · exact Iff.rfl

theorem ends_readIpv4 (order : ByteOrder) (src dst : IpAddress) {Q : UInt8 → Nat → Prop} :
    (Ends d p (readIpv4 order src dst) fun x q => Q x.1 q) ↔
      let size := ((d.getD p 0 &&& 0x0f) * 4).toNat
      d.getD p 0 &&& 0xf0 = 0x40 ∧ 20 ≤ size ∧ p + size ≤ d.length ∧
        Q (d.getD (p + 9) 0) (p + size) := by
  simp only [readIpv4, readIpv4Fields, readWord, ends_bind, ends_validate, ends_peek, ends_ite,
    ends_fail, ends_skip, ends_vreadU8, ends_vreadU32, ends_pure, ipv4HdrSize]
  generalize hsize : ((d.getD p 0 &&& 15) * 4).toNat = size
  simp only [Nat.add_zero]
  by_cases hversion : d.getD p 0 &&& 240 = 64
  · by_cases hlow : 20 ≤ size
    · have hend : p + 9 + 1 + 2 + 4 + 4 + (size - 20) = p + size := by omega
      rw [if_neg (by rw [hversion]; simp; omega), hend]
      constructor
      · rintro ⟨_, _, h, _, _, _, hQ⟩
        exact ⟨hversion, hlow, h, hQ⟩
      · rintro ⟨_, _, h, hQ⟩
        exact ⟨by omega, by omega, h, by omega, by omega, by omega, hQ⟩
    · rw [if_pos (.inr (by omega))]
      exact iff_of_false (fun h => h.2.2) fun h => hlow h.2.1
  · rw [if_pos (.inl hversion)]
    exact iff_of_false (fun h => h.2.2) fun h => hversion h.1

theorem ends_readIpv6 (order : ByteOrder) (src dst : IpAddress) {Q : UInt8 → Nat → Prop} :
    (Ends d p (readIpv6 order src dst) fun x q => Q x.1 q) ↔
      p + ipv6HdrSize ≤ d.length ∧ Q (d.getD (p + 6) 0) (p + ipv6HdrSize) := by
  simp only [readIpv6, readWords, readWord, ends_bind, ends_validate, ends_skip, ends_vreadU8,
    ends_vreadU32, ends_pure, ipv6HdrSize]
  constructor
  · rintro ⟨h, _, _, _, _, _, _, _, _, _, hQ⟩
    exact ⟨h, hQ⟩
  · rintro ⟨h, hQ⟩
    exact ⟨h, by omega, by omega, by omega, by omega, by omega, by omega, by omega, by omega,
      by omega, hQ⟩

theorem ends_readUdp (protocol : UInt8) {Q : UInt16 → Nat → Prop} :
    (Ends d p (readUdp protocol) fun x q => Q x.2.1 q) ↔
      protocol = ipProtoUdp ∧ p + udpHdrSize ≤ d.length ∧ Q (wordAt d (p + 2)) (p + udpHdrSize) := by
  simp only [readUdp, ends_ite, ends_bind, ends_validate, ends_vreadU16, ends_skip, ends_pure,
    ends_fail, udpHdrSize]
  by_cases hudp : protocol = ipProtoUdp
  · rw [if_pos hudp]
    constructor
    · rintro ⟨h, _, _, _, hQ⟩
      exact ⟨hudp, h, hQ⟩
    · rintro ⟨_, h, hQ⟩
      exact ⟨h, by omega, by omega, by omega, hQ⟩
  · rw [if_neg hudp]
    simp [hudp]

theorem ends_readIp (order : ByteOrder) (src dst : IpAddress) (protocol : UInt16)
    {Q : UInt8 → Nat → Prop} :
    (Ends d p (readIp order src dst protocol) fun x q => Q x.2.1 q) ↔
      if protocol = ethPIp then
        let size := ((d.getD p 0 &&& 0x0f) * 4).toNat
        d.getD p 0 &&& 0xf0 = 0x40 ∧ 20 ≤ size ∧ p + size ≤ d.length ∧
          Q (d.getD (p + 9) 0) (p + size)
      else protocol = ethPIpv6 ∧ p + ipv6HdrSize ≤ d.length ∧
        Q (d.getD (p + 6) 0) (p + ipv6HdrSize) := by
  simp only [readIp, ends_ite, ends_bind, ends_pure, ends_fail]
  rw [ends_readIpv4 order src dst, ends_readIpv6 order src dst]
  by_cases hv6 : protocol = ethPIpv6
  · simp [hv6]
  · simp [hv6]

/-- Read succeeds where the UDP header is found and whole, and stops behind it. -/
theorem ends_read (order : ByteOrder) (src dst : IpAddress) {Q : UInt16 → Nat → Prop} :
    (Ends d 0 (read order src dst) fun x q => Q x.1.destinationPort q) ↔
      ∃ u, udpStart d = some u ∧ u + udpHdrSize ≤ d.length ∧
        Q (wordAt d (u + 2)) (u + udpHdrSize) := by
  simp only [InPacket.read, ends_bind, ends_validate, ends_pure, ends_readEth, ends_readUdp]
  have hip := ends_readIp (d := d) (p := ipStart d) order src dst (wordAt d (ipStart d - 2))
    (Q := fun c q => c = ipProtoUdp ∧ q + udpHdrSize ≤ d.length ∧
      Q (wordAt d (q + 2)) (q + udpHdrSize))
  have hstart : ethHdrSize ≤ ipStart d := Nat.le_add_right _ _
  rw [ends_readEthProtocol, hip, udpStart]
  simp only [ethHdrSize] at hstart ⊢
  by_cases hv4 : wordAt d (ipStart d - 2) = ethPIp
  · simp only [if_pos hv4]
    constructor
    · rintro ⟨_, _, _, _, hversion, hsize, _, hudp, hlen, hQ⟩
      exact ⟨_, if_pos ⟨hversion, hsize, hudp⟩, hlen, hQ⟩
    · rintro ⟨u, hu, hlen, hQ⟩
      split_ifs at hu with hfields
      cases hu
      exact ⟨by omega, by omega, by omega, by omega, hfields.1, hfields.2.1, by omega, hfields.2.2,
        hlen, hQ⟩
  · simp only [if_neg hv4]
    constructor
    · rintro ⟨_, _, _, _, hv6, _, hudp, hlen, hQ⟩
      exact ⟨_, if_pos ⟨hv6, hudp⟩, hlen, hQ⟩
    · rintro ⟨u, hu, hlen, hQ⟩
      split_ifs at hu with hfields
      cases hu
      exact ⟨by omega, by omega, by omega, by omega, hfields.1, by omega, hfields.2, hlen, hQ⟩

end Ends

namespace RawServer
variable (order : ByteOrder) (dnsPort : UInt16)

/- receiveRawData without a socket error: the table afterwards and what Add returned, if it was
   called. The unions are what a fresh InPacket holds. -/
def receiveRawData (m : EthMappings) (now : Int) (ipSource ipDestination : IpAddress)
    (buf : List UInt8) (n : Nat) : Option (EthMappings × Option Bool) :=
  match (readQuery order dnsPort ipSource ipDestination).run buf n 0 with
  | .error (.failed _) => some (m, none)
  | .error _ => none
  | .ok (none, _) => some (m, none)
  | .ok (some ipacket, _) =>
    let (m, added) := m.add now ipacket.ethSource true ipacket.ipSource
    some (m, some added)

/- The callback of the raw sockets calls it with the buffer it has filled. -/
theorem receive_eq (s : RawServer) (c : Capture) :
    receive order dnsPort s c =
      let buf := fill (s.recvBuffers c.socket) c.frame
      (receiveRawData order dnsPort s.ethmappings c.now c.ipSource c.ipDestination buf
        (min c.frame.length packetSzMax)).map fun x =>
          (⟨Function.update s.recvBuffers c.socket buf, x.1⟩, x.2) := by
  simp only [receive, receiveRawData]
  cases (readQuery order dnsPort c.ipSource c.ipDestination).run
      (fill (s.recvBuffers c.socket) c.frame) (min c.frame.length packetSzMax) 0 with
  | error e => cases e <;> rfl
  | ok v =>
    obtain ⟨o, q⟩ := v
    cases o <;> rfl

/-- The bytes of the frame alone decide: whatever two buffers hold behind it, the change to the
table is the same, and no byte behind it is looked at. -/
structure FrameDecides (m : EthMappings) (now : Int) (src dst : IpAddress) (d : List UInt8) :
    Prop where
  same : ∀ stale stale', receiveRawData order dnsPort m now src dst (d ++ stale) d.length =
    receiveRawData order dnsPort m now src dst (d ++ stale') d.length
  inside : (readQuery order dnsPort src dst).run d d.length 0 ≠ .error .outOfRange

theorem stable_readQuery (src dst : IpAddress) : Stable (readQuery order dnsPort src dst) := by
  apply stable_bind (stable_read order src dst)
  intro x
  apply stable_ite (stable_pure _)
  apply stable_bind stable_here
  intro pos
  apply stable_bind stable_nominal
  intro size
  apply stable_ite (stable_pure _)
  apply stable_bind (stable_peek 2)
  intro b
  exact stable_ite (stable_pure _) (stable_pure _)

/-- The byte with the QR bit is outside exactly if the payload has two bytes. -/
theorem readQuery_outOfRange_iff (src dst : IpAddress) (d : List UInt8) :
    (readQuery order dnsPort src dst).run d d.length 0 = .error .outOfRange ↔
      TwoBytePayload d dnsPort := by
  have hends := ends_read (d := d) order src dst
    (Q := fun port q => port = dnsPort ∧ q + 2 = d.length)
  have htwo : TwoBytePayload d dnsPort ↔ Ends d 0 (InPacket.read order src dst) fun x q =>
      x.1.destinationPort = dnsPort ∧ q + 2 = d.length := by
    rw [hends, TwoBytePayload]
    constructor
    · rintro ⟨u, hu, hport, hlen⟩
      exact ⟨u, hu, by omega, hport, hlen.symm⟩
    · rintro ⟨u, hu, _, hport, hlen⟩
      exact ⟨u, hu, hport, hlen.symm⟩
  rw [htwo]
  cases hread : (InPacket.read order src dst).run d d.length 0 with
  | error e =>
    have hsafe := safe_read order src dst d 0 nofun
    have hrun : (readQuery order dnsPort src dst).run d d.length 0 = .error e := bind_of_error hread
    refine iff_of_false ?_ (not_ends_of_error hread)
    rw [hrun]
    rintro ⟨⟩
    exact hsafe hread
  | ok v =>
    obtain ⟨⟨ipacket, udp⟩, q⟩ := v
    rw [ends_of_ok hread, readQuery, bind_of_ok hread]
    by_cases hport : ipacket.destinationPort = dnsPort
    · simp only [hport, ne_eq, not_true_eq_false, ↓reduceIte, true_and, bind_apply, here, nominal]
      by_cases hshort : q + 2 > d.length
      · rw [if_pos hshort]
        exact iff_of_false (fun h => by cases h) (by omega)
      rw [if_neg hshort]
      by_cases hin : q + 2 < d.length
      · rw [bind_of_ok (peek_ok d.length hin)]
        refine iff_of_false ?_ (by omega)
        split_ifs <;> exact fun h => by cases h
      · rw [bind_of_error (peek_outOfRange d.length (by omega))]
        exact iff_of_true rfl (by omega)
    · simp only [ne_eq, hport, not_false_eq_true, ↓reduceIte]
      exact iff_of_false (fun h => by cases h) fun h => h.1

variable {order dnsPort} in
theorem frameDecides_of_inside {m : EthMappings} {now : Int} {src dst : IpAddress} {d : List UInt8}
    (h : (readQuery order dnsPort src dst).run d d.length 0 ≠ .error .outOfRange) :
    FrameDecides order dnsPort m now src dst d where
  same stale stale' := by
    rw [receiveRawData, receiveRawData, stable_readQuery order dnsPort src dst d stale _ _ h,
      stable_readQuery order dnsPort src dst d stale' _ _ h]
  inside := h

/-- For every table, clock, port and frame, the bytes behind the frame matter exactly if the
frame is a UDP datagram to the DNS port with a payload of two bytes. -/
theorem frameDecides_iff (m : EthMappings) (now : Int) (src dst : IpAddress) (d : List UInt8) :
    FrameDecides order dnsPort m now src dst d ↔ ¬ TwoBytePayload d dnsPort := by
  rw [← readQuery_outOfRange_iff order dnsPort src dst]
  exact ⟨fun h => h.inside, frameDecides_of_inside⟩

/- A frame to port 53 with a payload of two bytes. -/
def shortQuery : Frame := { askedFrom 1 movedAddress with udpLength := 10, payload := [0, 7] }

/-- Left-over bytes decide whether its sender is recorded: with a QR bit of 0 behind the frame
it is, with a QR bit of 1 it is not. -/
theorem stale_byte_decides : TwoBytePayload shortQuery.bytes 53 ∧
    (∃ m, receiveRawData .little 53 emptyMappings 100 ⟨Vector.replicate 16 0⟩
      ⟨Vector.replicate 16 0⟩ (shortQuery.bytes ++ [0]) shortQuery.bytes.length =
        some (m, some true) ∧ m.count = 1) ∧
    receiveRawData .little 53 emptyMappings 100 ⟨Vector.replicate 16 0⟩ ⟨Vector.replicate 16 0⟩
      (shortQuery.bytes ++ [0x80]) shortQuery.bytes.length = some (emptyMappings, none) ∧
    ¬ FrameDecides .little 53 emptyMappings 100 ⟨Vector.replicate 16 0⟩ ⟨Vector.replicate 16 0⟩
      shortQuery.bytes := by
  have htwo : TwoBytePayload shortQuery.bytes 53 := ⟨34, by decide, by decide, by decide⟩
  refine ⟨htwo, ⟨_, rfl, rfl⟩, rfl, fun h => ?_⟩
  exact h.inside ((readQuery_outOfRange_iff _ _ _ _ _).mpr htwo)

end RawServer

end DnsWrapper.Dns
