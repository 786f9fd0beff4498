import DnsWrapper.InPacket

/-! Frames as their senders lay them out, and that InPacket::Read finds the fields again. -/
namespace DnsWrapper.Net
open ByteReader ByteWord NetCommon InPacket

/- An address by family, in wire order. -/
inductive WireAddress where
  | v4 (octets : Vector UInt8 4)
  | v6 (octets : Vector UInt8 16)
  deriving DecidableEq

namespace WireAddress

def isV4 : WireAddress → Bool
  | v4 _ => true
  | v6 _ => false

/- The union over earlier contents: IPv4 covers its first word only. -/
def store (a : WireAddress) (before : IpAddress) : IpAddress :=
  match a with
  | v4 octets => before.setWord 0 octets
  | v6 octets => ⟨octets⟩

end WireAddress

structure VlanTag where
  service : Bool
  tci : UInt16

def VlanTag.protocol (t : VlanTag) : UInt16 := if t.service then ethP8021AD else ethP8021Q

def VlanTag.bytes (t : VlanTag) : List UInt8 := bytes16 t.protocol ++ bytes16 t.tci

/- fields stands for type of service up to time to live. -/
structure Ipv4Header where
  fields : Vector UInt8 8
  checksum : Vector UInt8 2
  source : Vector UInt8 4
  destination : Vector UInt8 4
  options : List (Vector UInt8 4)
  options_le : options.length ≤ 10

def Ipv4Header.bytes (h : Ipv4Header) : List UInt8 :=
  [UInt8.ofNat (0x40 + (5 + h.options.length))] ++ h.fields.toList ++ [ipProtoUdp] ++
    h.checksum.toList ++ h.source.toList ++ h.destination.toList ++
    h.options.flatMap Vector.toList

/- fields stands for version up to payload length. -/
structure Ipv6Header where
  fields : Vector UInt8 6
  version : ∀ b ∈ fields.toList.head?, b &&& 0xf0 = 0x60
  hopLimit : UInt8
  source : Vector UInt8 16
  destination : Vector UInt8 16

def Ipv6Header.bytes (h : Ipv6Header) : List UInt8 :=
  h.fields.toList ++ [ipProtoUdp] ++ [h.hopLimit] ++ h.source.toList ++ h.destination.toList

inductive IpHeader where
  | v4 (h : Ipv4Header)
  | v6 (h : Ipv6Header)

namespace IpHeader

def protocol : IpHeader → UInt16
  | v4 _ => ethPIp
  | v6 _ => ethPIpv6

def bytes : IpHeader → List UInt8
  | v4 h => h.bytes
  | v6 h => h.bytes

def source : IpHeader → WireAddress
  | v4 h => .v4 h.source
  | v6 h => .v6 h.source

def destination : IpHeader → WireAddress
  | v4 h => .v4 h.destination
  | v6 h => .v6 h.destination

end IpHeader

/- A UDP datagram over IP over Ethernet with at most two VLAN tags. -/
structure Frame where
  ethDestination : EthAddress
  ethSource : EthAddress
  tags : List VlanTag
  tags_le : tags.length ≤ vlanMaxDepth
  ip : IpHeader
  sourcePort : UInt16
  destinationPort : UInt16
  udpLength : UInt16
  udpChecksum : UInt16
  payload : List UInt8

namespace Frame

def ethHeader (f : Frame) : List UInt8 :=
  f.ethDestination.v.toList ++ f.ethSource.v.toList ++
    (f.tags.flatMap VlanTag.bytes ++ bytes16 f.ip.protocol)

def udpHeader (f : Frame) : List UInt8 :=
  bytes16 f.sourcePort ++ bytes16 f.destinationPort ++ bytes16 f.udpLength ++ bytes16 f.udpChecksum

def headers (f : Frame) : List UInt8 := f.ethHeader ++ f.ip.bytes ++ f.udpHeader

def bytes (f : Frame) : List UInt8 := f.headers ++ f.payload

/- A DNS query to this port: the payload reaches the byte with the QR bit, and it is 0. -/
def IsQuery (f : Frame) (dnsPort : UInt16) : Prop :=
  f.destinationPort = dnsPort ∧ ∃ b, f.payload[2]? = some b ∧ b &&& 0x80 = 0

end Frame

theorem yields_readEth (e : EthAddress) : Yields readEth e.v.toList e := by
  obtain ⟨a, b, c, d, e, f, rfl⟩ := e.exists_six
  exact yields_bind (yields_byte a) (yields_bind (yields_byte b) (yields_bind (yields_byte c)
    (yields_bind (yields_byte d) (yields_bind (yields_byte e) (yields_bind (yields_byte f)
      (yields_pure _))))))

theorem isVlan_protocol (t : VlanTag) : isVlan t.protocol = true := by
  cases t with
  | mk service tci => cases service <;> rfl

theorem isVlan_ip (h : IpHeader) : isVlan h.protocol = false := by
  cases h with
  | v4 h => rfl
  | v6 h => rfl

theorem yields_readVlan (tags : List VlanTag) (h : IpHeader) {k : Nat} (hk : tags.length ≤ k) :
    Yields (do let protocol ← vreadU16; readVlan k protocol)
      (tags.flatMap VlanTag.bytes ++ bytes16 h.protocol) h.protocol := by
  induction tags generalizing k with
  | nil =>
    have hstop : Yields (readVlan k h.protocol) [] h.protocol := by
      cases k with
      | zero => exact yields_pure _
      | succ k =>
        rw [readVlan, isVlan_ip]
        exact yields_pure _
    have hall := yields_bind (yields_vreadU16 h.protocol) hstop
    rw [List.append_nil] at hall
    exact hall
  | cons t tags ih =>
    cases k with
    | zero => cases hk
    | succ k =>
      have hrest := ih (Nat.le_of_succ_le_succ hk)
      have hskip : Yields (skip 2 : Reader Code Unit) (bytes16 t.tci) () := yields_skip rfl
      have hlen : vlanHdrSize ≤
          (bytes16 t.tci ++ (tags.flatMap VlanTag.bytes ++ bytes16 h.protocol)).length := by
        simp [vlanHdrSize, bytes16]
      have hturn : Yields (readVlan (k + 1) t.protocol)
          (bytes16 t.tci ++ (tags.flatMap VlanTag.bytes ++ bytes16 h.protocol)) h.protocol := by
        rw [readVlan, isVlan_protocol]
        exact yields_validate hlen (yields_bind hskip hrest)
      have hall := yields_bind (yields_vreadU16 t.protocol) hturn
      simpa [VlanTag.bytes, List.append_assoc] using hall

theorem yields_readWord (order : ByteOrder) (a : IpAddress) (i : Nat) (w : Vector UInt8 4) :
    Yields (readWord order a i) w.toList (a.setWord i w) := by
  obtain ⟨p, q, r, s, rfl⟩ := exists_four w
  have h := yields_map (fun w => a.setWord i (order.bytes (order.ntohl w))) (yields_join32 p q r s)
  rwa [order.bytes_ntohl] at h

theorem yields_readWords (order : ByteOrder) (a : IpAddress) (v : Vector UInt8 16) :
    Yields (readWords order 0 4 a) v.toList ⟨v⟩ := by
  rw [toList_words, ← a.setWord_words v]
  exact yields_bind (yields_readWord order _ 0 _) (yields_bind (yields_readWord order _ 1 _)
    (yields_bind (yields_readWord order _ 2 _) (yields_bind (yields_readWord order _ 3 _)
      (yields_pure _))))

/- The version and the length of an IPv4 header from its first byte. -/
theorem first_byte {n : Nat} (h : n ≤ 10) :
    UInt8.ofNat (0x40 + (5 + n)) &&& 0xf0 = 0x40 ∧
      ((UInt8.ofNat (0x40 + (5 + n)) &&& 0x0f) * 4).toNat = 20 + 4 * n := by
  interval_cases n <;> decide

theorem length_options (options : List (Vector UInt8 4)) :
    (options.flatMap Vector.toList).length = 4 * options.length := by
  induction options with
  | nil => rfl
  | cons w options ih =>
    rw [List.flatMap_cons, List.length_append, ih, Vector.length_toList, List.length_cons]
    omega

theorem Ipv4Header.length_bytes (h : Ipv4Header) :
    h.bytes.length = 20 + 4 * h.options.length := by
  simp [bytes]
  omega

theorem yields_readIpv4Fields (order : ByteOrder) (src dst : IpAddress) (h : Ipv4Header) :
    Yields (readIpv4Fields order src dst (20 + 4 * h.options.length)) h.bytes
      (ipProtoUdp, src.setWord 0 h.source, dst.setWord 0 h.destination) := by
  have hskip : Yields (skip 9 : Reader Code Unit)
      ([UInt8.ofNat (0x40 + (5 + h.options.length))] ++ h.fields.toList) () :=
    yields_skip (by simp)
  have hsum : Yields (skip 2 : Reader Code Unit) h.checksum.toList () := yields_skip (by simp)
  have htail : Yields (skip (20 + 4 * h.options.length - ipv4HdrSize) : Reader Code Unit)
      (h.options.flatMap Vector.toList) () := by
    apply yields_skip
    rw [length_options, ipv4HdrSize, Nat.add_sub_cancel_left]
  simp only [Ipv4Header.bytes, List.append_assoc] at hskip ⊢
  rw [← List.append_assoc [_]]
  exact yields_bind hskip (yields_bind (yields_vreadByte ipProtoUdp) (yields_bind hsum
    (yields_bind (yields_readWord order src 0 h.source)
      (yields_bind (yields_readWord order dst 0 h.destination) (yields_map _ htail)))))

theorem yields_readIpv4 (order : ByteOrder) (src dst : IpAddress) (h : Ipv4Header) :
    Yields (readIpv4 order src dst) h.bytes
      (ipProtoUdp, src.setWord 0 h.source, dst.setWord 0 h.destination) := by
  obtain ⟨hversion, hsize⟩ := first_byte h.options_le
  have hfields := yields_validate (k := 20 + 4 * h.options.length) (by rw [h.length_bytes])
    (yields_readIpv4Fields order src dst h)
  apply yields_validate (by rw [h.length_bytes, ipv4HdrSize]; omega)
  apply yields_peek
  simp only [hversion, hsize]
  rw [if_neg (by simp)]
  exact hfields

theorem yields_readIpv6 (order : ByteOrder) (src dst : IpAddress) (h : Ipv6Header) :
    Yields (readIpv6 order src dst) h.bytes (ipProtoUdp, ⟨h.source⟩, ⟨h.destination⟩) := by
  have hskip : Yields (skip 6 : Reader Code Unit) h.fields.toList () := yields_skip (by simp)
  have hhop : Yields (skip 1 : Reader Code Unit) [h.hopLimit] () := yields_skip rfl
  apply yields_validate (by simp [Ipv6Header.bytes, ipv6HdrSize])
  simp only [Ipv6Header.bytes, List.append_assoc]
  exact yields_bind hskip (yields_bind (yields_vreadByte ipProtoUdp) (yields_bind hhop
    (yields_bind (yields_readWords order src h.source)
      (yields_map _ (yields_readWords order dst h.destination)))))

theorem yields_readIp (order : ByteOrder) (src dst : IpAddress) (h : IpHeader) :
    Yields (readIp order src dst h.protocol) h.bytes
      (h.source.isV4, ipProtoUdp, h.source.store src, h.destination.store dst) := by
  cases h with
  | v4 h => exact yields_map _ (yields_readIpv4 order src dst h)
  | v6 h => exact yields_map _ (yields_readIpv6 order src dst h)

theorem yields_readUdp (f : Frame) : Yields (readUdp ipProtoUdp) f.udpHeader
    (f.sourcePort, f.destinationPort, f.udpLength) := by
  have hskip : Yields (skip 2 : Reader Code Unit) (bytes16 f.udpChecksum) () := yields_skip rfl
  rw [readUdp, if_pos rfl]
  apply yields_validate (by simp [Frame.udpHeader, bytes16, udpHdrSize])
  simp only [Frame.udpHeader, List.append_assoc]
  exact yields_bind (yields_vreadU16 f.sourcePort) (yields_bind (yields_vreadU16 f.destinationPort)
    (yields_bind (yields_vreadU16 f.udpLength) (yields_map _ hskip)))

theorem length_tags (tags : List VlanTag) :
    (tags.flatMap VlanTag.bytes).length = 4 * tags.length := by
  induction tags with
  | nil => rfl
  | cons t tags ih =>
    rw [List.flatMap_cons, List.length_append, ih, List.length_cons, VlanTag.bytes, bytes16, bytes16]
    simp only [List.length_append, List.length_cons, List.length_nil]
    omega

theorem IpHeader.length_bytes_le (h : IpHeader) : h.bytes.length ≤ 60 := by
  cases h with
  | v4 h =>
    have hopt := h.options_le
    rw [bytes, h.length_bytes]
    omega
  | v6 h => simp [bytes, Ipv6Header.bytes]

theorem Frame.length_headers_le (f : Frame) : f.headers.length ≤ 90 := by
  have htags := f.tags_le
  have hip := f.ip.length_bytes_le
  rw [vlanMaxDepth] at htags
  simp only [headers, ethHeader, udpHeader, List.length_append, Vector.length_toList, length_tags,
    bytes16, List.length_cons, List.length_nil]
  omega

/- What InPacket::Read makes of a frame, over the earlier contents of the two unions. -/
def Frame.packet (f : Frame) (src dst : IpAddress) : InPacket where
  ethDestination := f.ethDestination
  ethSource := f.ethSource
  ethProtocol := f.ip.protocol
  ipv4 := f.ip.source.isV4
  ipSource := f.ip.source.store src
  ipDestination := f.ip.destination.store dst
  ipProtocol := ipProtoUdp
  sourcePort := f.sourcePort
  destinationPort := f.destinationPort

/-- Read takes the headers of every frame and finds its fields. -/
theorem yields_read (order : ByteOrder) (src dst : IpAddress) (f : Frame) :
    Yields (read order src dst) f.headers (f.packet src dst, f.udpLength) := by
  have hlen : ethHdrSize ≤ f.headers.length := by
    simp [Frame.headers, Frame.ethHeader, bytes16, ethHdrSize]
    omega
  apply yields_validate hlen
  simp only [Frame.headers, Frame.ethHeader, List.append_assoc]
  rw [← List.append_assoc (f.tags.flatMap VlanTag.bytes)]
  exact yields_bind (yields_readEth f.ethDestination) (yields_bind (yields_readEth f.ethSource)
    (yields_bind (yields_readVlan f.tags f.ip f.tags_le) (yields_bind
      (yields_readIp order src dst f.ip) (yields_map _ (yields_readUdp f)))))

end DnsWrapper.Net
