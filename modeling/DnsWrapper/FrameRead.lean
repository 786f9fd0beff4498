import DnsWrapper.EthFrame

/-! InPacket::Read over frames and over any other bytes. The 32-bit reads of the addresses check
for two bytes and take four, but the header sizes are checked before them, so that here, unlike
in a DNS message, nothing behind the frame is read. -/
namespace DnsWrapper.Net
open ByteReader ByteWord NetCommon InPacket

section Stable

theorem stable_readEth : Stable readEth :=
  stable_bind stable_byte fun _ => stable_bind stable_byte fun _ => stable_bind stable_byte fun _ =>
    stable_bind stable_byte fun _ => stable_bind stable_byte fun _ => stable_bind stable_byte fun _ =>
      stable_pure _

theorem stable_readVlan (k : Nat) (protocol : UInt16) : Stable (readVlan k protocol) := by
  induction k generalizing protocol with
  | zero => exact stable_pure _
  | succ k ih =>
    exact stable_ite (stable_bind (stable_validate _) fun _ => stable_bind (stable_skip 2) fun _ =>
      stable_bind stable_vreadU16 fun protocol => ih protocol) (stable_pure _)

theorem stable_readWord (order : ByteOrder) (a : IpAddress) (i : Nat) :
    Stable (readWord order a i) :=
  stable_bind stable_vreadU32 fun _ => stable_pure _

theorem stable_readWords (order : ByteOrder) (i k : Nat) (a : IpAddress) :
    Stable (readWords order i k a) := by
  induction k generalizing i a with
  | zero => exact stable_pure _
  | succ k ih => exact stable_bind (stable_readWord order a i) fun a => ih (i + 1) a

theorem stable_readIpv4 (order : ByteOrder) (src dst : IpAddress) :
    Stable (readIpv4 order src dst) :=
  stable_bind (stable_validate _) fun _ => stable_bind (stable_peek 0) fun _ =>
    stable_ite (stable_fail _) (stable_bind (stable_validate _) fun _ =>
      stable_bind (stable_skip 9) fun _ => stable_bind stable_vreadU8 fun _ =>
      stable_bind (stable_skip 2) fun _ => stable_bind (stable_readWord order src 0) fun _ =>
      stable_bind (stable_readWord order dst 0) fun _ => stable_bind (stable_skip _) fun _ =>
        stable_pure _)

theorem stable_readIpv6 (order : ByteOrder) (src dst : IpAddress) :
    Stable (readIpv6 order src dst) :=
  stable_bind (stable_validate _) fun _ => stable_bind (stable_skip 6) fun _ =>
    stable_bind stable_vreadU8 fun _ => stable_bind (stable_skip 1) fun _ =>
    stable_bind (stable_readWords order 0 4 src) fun _ =>
    stable_bind (stable_readWords order 0 4 dst) fun _ => stable_pure _

theorem stable_readIp (order : ByteOrder) (src dst : IpAddress) (protocol : UInt16) :
    Stable (readIp order src dst protocol) :=
  stable_ite (stable_bind (stable_readIpv4 order src dst) fun _ => stable_pure _)
    (stable_ite (stable_bind (stable_readIpv6 order src dst) fun _ => stable_pure _) (stable_fail _))

theorem stable_readUdp (protocol : UInt8) : Stable (readUdp protocol) :=
  stable_ite (stable_bind (stable_validate _) fun _ => stable_bind stable_vreadU16 fun _ =>
    stable_bind stable_vreadU16 fun _ => stable_bind stable_vreadU16 fun _ =>
    stable_bind (stable_skip 2) fun _ => stable_pure _) (stable_fail _)

theorem stable_read (order : ByteOrder) (src dst : IpAddress) : Stable (read order src dst) :=
  stable_bind (stable_validate _) fun _ => stable_bind stable_readEth fun _ =>
    stable_bind stable_readEth fun _ =>
    stable_bind (stable_bind stable_vreadU16 fun _ => stable_readVlan _ _) fun _ =>
    stable_bind (stable_readIp order src dst _) fun _ => stable_bind (stable_readUdp _) fun _ =>
      stable_pure _

end Stable

section Safe

theorem advances_readEth : Advances readEth 6 :=
  advances_bind advances_byte fun _ => advances_bind advances_byte fun _ =>
    advances_bind advances_byte fun _ => advances_bind advances_byte fun _ =>
    advances_bind advances_byte fun _ => advances_bind advances_byte fun _ => advances_pure _

theorem safe_readEth : Safe 6 readEth :=
  safe_bind (j := 1) (safe_mono safe_byte (by decide)) advances_byte fun _ =>
    safe_bind (j := 1) (safe_mono safe_byte (by decide)) advances_byte fun _ =>
    safe_bind (j := 1) (safe_mono safe_byte (by decide)) advances_byte fun _ =>
    safe_bind (j := 1) (safe_mono safe_byte (by decide)) advances_byte fun _ =>
    safe_bind (j := 1) (safe_mono safe_byte (by decide)) advances_byte fun _ =>
    safe_then safe_byte fun _ => safe_pure 0 _

theorem safe_readVlan (k : Nat) (protocol : UInt16) : Safe 0 (readVlan k protocol) := by
  induction k generalizing protocol with
  | zero => exact safe_pure 0 _
  | succ k ih =>
    refine safe_ite (safe_validate (safe_then (safe_skip _ 2) fun _ => ?_)) (safe_pure 0 _)
    exact safe_then safe_vreadU16 fun protocol => ih protocol

theorem advances_readWord (order : ByteOrder) (a : IpAddress) (i : Nat) :
    Advances (readWord order a i) 4 :=
  advances_bind advances_vreadU32 fun _ => advances_pure _

theorem safe_readWord (order : ByteOrder) (a : IpAddress) (i : Nat) :
    Safe 4 (readWord order a i) :=
  safe_then safe_vreadU32 fun _ => safe_pure 0 _

theorem advances_readWords (order : ByteOrder) (i k : Nat) (a : IpAddress) :
    Advances (readWords order i k a) (4 * k) := by
  induction k generalizing i a with
  | zero => exact advances_pure _
  | succ k ih =>
    have hsize : 4 * (k + 1) = 4 + 4 * k := by omega
    rw [hsize]
    exact advances_bind (advances_readWord order a i) fun a => ih (i + 1) a

theorem safe_readWords (order : ByteOrder) (i k : Nat) (a : IpAddress) :
    Safe (4 * k) (readWords order i k a) := by
  induction k generalizing i a with
  | zero => exact safe_pure _ _
  | succ k ih =>
    have hsize : 4 * (k + 1) = 4 + 4 * k := by omega
    rw [hsize]
    exact safe_bind (safe_mono (safe_readWord order a i) (Nat.le_add_right _ _))
      (advances_readWord order a i) fun a => ih (i + 1) a

/- The first twelve bytes, the source and the destination; the options are only skipped. -/
theorem safe_readIpv4Fields (order : ByteOrder) (src dst : IpAddress) (size : Nat) :
    Safe 20 (readIpv4Fields order src dst size) :=
  safe_bind (j := 9) (safe_skip _ 9) (advances_skip 9) fun _ =>
    safe_bind (j := 1) (safe_mono safe_vreadU8 (by decide)) advances_vreadByte fun _ =>
    safe_bind (j := 2) (safe_skip _ 2) (advances_skip 2) fun _ =>
    safe_bind (j := 4) (safe_mono (safe_readWord order src 0) (by decide))
      (advances_readWord order src 0) fun _ =>
    safe_then (safe_readWord order dst 0) fun _ => safe_then (safe_skip 0 _) fun _ => safe_pure 0 _

theorem safe_readIpv4 (order : ByteOrder) (src dst : IpAddress) : Safe 0 (readIpv4 order src dst) :=
  safe_validate (safe_bind (j := 0) (safe_mono (safe_peek 0) (by decide)) (advances_peek 0) fun _ =>
    safe_ite (safe_fail _ _) (safe_bind (j := 0) (safe_check _ _) (advances_validate _) fun _ =>
      safe_readIpv4Fields order src dst _))

theorem safe_readIpv6 (order : ByteOrder) (src dst : IpAddress) : Safe 0 (readIpv6 order src dst) :=
  safe_validate (safe_bind (j := 6) (safe_skip _ 6) (advances_skip 6) fun _ =>
    safe_bind (j := 1) (safe_mono safe_vreadU8 (by decide)) advances_vreadByte fun _ =>
    safe_bind (j := 1) (safe_skip _ 1) (advances_skip 1) fun _ =>
    safe_bind (j := 16) (safe_mono (safe_readWords order 0 4 src) (by decide))
      (advances_readWords order 0 4 src) fun _ =>
    safe_then (safe_readWords order 0 4 dst) fun _ => safe_pure 0 _)

theorem safe_readIp (order : ByteOrder) (src dst : IpAddress) (protocol : UInt16) :
    Safe 0 (readIp order src dst protocol) :=
  safe_ite (safe_then (safe_readIpv4 order src dst) fun _ => safe_pure 0 _)
    (safe_ite (safe_then (safe_readIpv6 order src dst) fun _ => safe_pure 0 _) (safe_fail 0 _))

theorem safe_readUdp (protocol : UInt8) : Safe 0 (readUdp protocol) :=
  safe_ite (safe_validate (safe_mono (safe_then safe_vreadU16 fun _ =>
    safe_then safe_vreadU16 fun _ => safe_then safe_vreadU16 fun _ =>
    safe_then (safe_skip 0 2) fun _ => safe_pure 0 _) (Nat.zero_le _))) (safe_fail 0 _)

theorem safe_read (order : ByteOrder) (src dst : IpAddress) : Safe 0 (read order src dst) :=
  safe_validate (safe_bind (j := 6) (safe_mono safe_readEth (by decide)) advances_readEth fun _ =>
    safe_bind (j := 6) (safe_mono safe_readEth (by decide)) advances_readEth fun _ =>
    safe_mono (safe_then (safe_then safe_vreadU16 fun _ => safe_readVlan _ _) fun _ =>
      safe_then (safe_readIp order src dst _) fun _ => safe_then (safe_readUdp _) fun _ =>
        safe_pure 0 _) (Nat.zero_le 2))

end Safe

/- The memory of the union holds the octets of the address, in wire order. -/
def WireAddress.In (a : WireAddress) (m : IpAddress) : Prop :=
  match a with
  | v4 octets => m.ipv4Bytes = octets
  | v6 octets => m.v = octets

theorem WireAddress.in_store (a : WireAddress) (before : IpAddress) : a.In (a.store before) := by
  cases a with
  | v4 octets => exact before.ipv4Bytes_setWord octets
  | v6 octets => rfl

/- The fields of the frame are those of the packet. -/
structure Frame.ReadAs (f : Frame) (p : InPacket) : Prop where
  ethSource : p.ethSource = f.ethSource
  ethDestination : p.ethDestination = f.ethDestination
  ipv4 : p.ipv4 = f.ip.source.isV4
  ipSource : f.ip.source.In p.ipSource
  ipDestination : f.ip.destination.In p.ipDestination
  sourcePort : p.sourcePort = f.sourcePort
  destinationPort : p.destinationPort = f.destinationPort

theorem readAs_packet (f : Frame) (src dst : IpAddress) : f.ReadAs (f.packet src dst) where
  ethSource := rfl
  ethDestination := rfl
  ipv4 := rfl
  ipSource := f.ip.source.in_store src
  ipDestination := f.ip.destination.in_store dst
  sourcePort := rfl
  destinationPort := rfl

/-- The bytes from n on are not examined: an array that ends there is enough, and arrays that
agree up to there give the same result. -/
structure ReadsBelow (order : ByteOrder) (src dst : IpAddress) (buf : List UInt8) (n p : Nat) :
    Prop where
  inside : (read order src dst).run (buf.take n) n p ≠ .error .outOfRange
  agree : ∀ buf' : List UInt8, buf'.take n = buf.take n →
    (read order src dst).run buf' n p = (read order src dst).run buf n p

/-- Read finds the fields of every frame, on hosts of either byte order and whatever the buffer
and the unions held before, and stops at the first byte of the payload; of any bytes at all
it examines none from the size on. -/
theorem frame_read_back (order : ByteOrder) (src dst : IpAddress) :
    (∀ (f : Frame) (stale : List UInt8), ∃ p udp,
      (read order src dst).run (f.bytes ++ stale) f.bytes.length 0 = .ok ((p, udp), f.headers.length) ∧
        f.ReadAs p ∧ f.bytes.drop f.headers.length = f.payload) ∧
    ∀ (buf : List UInt8) (n p : Nat), n ≤ buf.length → ReadsBelow order src dst buf n p := by
  constructor
  · intro f stale
    refine ⟨f.packet src dst, f.udpLength, ?_, readAs_packet f src dst, List.drop_left⟩
    have h := yields_read order src dst f [] (f.payload ++ stale) f.bytes.length (by
      rw [List.length_nil, Nat.zero_add, Frame.bytes, List.length_append]
      exact Nat.le_add_right _ _)
    rw [List.nil_append, ← List.append_assoc, List.length_nil, Nat.zero_add] at h
    exact h
  · intro buf n p hn
    have hlen : (buf.take n).length = n := List.length_take_of_le hn
    have hinside : (read order src dst).run (buf.take n) n p ≠ .error .outOfRange := by
      have hsafe := safe_read order src dst (buf.take n) p nofun
      rw [hlen] at hsafe
      exact hsafe
    have hshort : ∀ buf' : List UInt8, buf'.take n = buf.take n →
        (read order src dst).run buf' n p = (read order src dst).run (buf.take n) n p := by
      intro buf' hb
      have hs := stable_read order src dst (buf.take n) (buf'.drop n) n p hinside
      rw [← hb, List.take_append_drop, hb] at hs
      exact hs
    refine ⟨hinside, ?_⟩
    intro buf' hb
    rw [hshort buf' hb, hshort buf rfl]

end DnsWrapper.Net
