import DnsWrapper.NetCommon

/-! The frames of the raw sockets: InPacket::Read, and the layout of the frames it is for. -/
namespace DnsWrapper.Net
open ByteReader ByteWord NetCommon

/- How the host keeps a word in memory. -/
inductive ByteOrder where
  | little | big
  deriving DecidableEq

namespace ByteOrder

def bytes : ByteOrder → UInt32 → Vector UInt8 4
  | little, w => #v[(w &&& 0xff).toUInt8, (w >>> 8 &&& 0xff).toUInt8,
      (w >>> 16 &&& 0xff).toUInt8, (w >>> 24).toUInt8]
  | big, w => #v[(w >>> 24).toUInt8, (w >>> 16 &&& 0xff).toUInt8, (w >>> 8 &&& 0xff).toUInt8,
      (w &&& 0xff).toUInt8]

def ntohl : ByteOrder → UInt32 → UInt32
  | little, w => join32 (w &&& 0xff).toUInt8 (w >>> 8 &&& 0xff).toUInt8
      (w >>> 16 &&& 0xff).toUInt8 (w >>> 24).toUInt8
  | big, w => w

theorem bytes_ntohl (order : ByteOrder) (a b c d : UInt8) :
    order.bytes (order.ntohl (join32 a b c d)) = #v[a, b, c, d] := by
  have hsplit (w : UInt32) (a b c d : UInt8) (h : w = join32 a b c d) :
      (w >>> 24).toUInt8 = a ∧ (w >>> 16 &&& 0xff).toUInt8 = b ∧ (w >>> 8 &&& 0xff).toUInt8 = c ∧
        (w &&& 0xff).toUInt8 = d := by
    apply join32_inj.mp
    rw [join32_bytes32, h]
  obtain ⟨ha, hb, hc, hd⟩ := hsplit (join32 a b c d) a b c d rfl
  cases order with
  | big => simp only [bytes, ntohl, ha, hb, hc, hd]
  | little =>
    obtain ⟨ha', hb', hc', hd'⟩ := hsplit (join32 d c b a) d c b a rfl
    simp only [bytes, ntohl, ha, hb, hc, hd, ha', hb', hc', hd']

end ByteOrder

def ethHdrSize : Nat := 14
def vlanHdrSize : Nat := 4
def vlanMaxDepth : Nat := 2
def ipv4HdrSize : Nat := 20
def ipv6HdrSize : Nat := 8 + 16 + 16
def udpHdrSize : Nat := 8

def ethPIp : UInt16 := 0x0800
def ethPIpv6 : UInt16 := 0x86DD
def ethP8021Q : UInt16 := 0x8100
def ethP8021AD : UInt16 := 0x88A8
def ipProtoUdp : UInt8 := 17

structure InPacket where
  ethDestination : EthAddress
  ethSource : EthAddress
  ethProtocol : UInt16
  ipv4 : Bool
  ipSource : IpAddress
  ipDestination : IpAddress
  ipProtocol : UInt8
  sourcePort : UInt16
  destinationPort : UInt16
  deriving DecidableEq

namespace InPacket

def isVlan (protocol : UInt16) : Bool := protocol = ethP8021Q || protocol = ethP8021AD

def readEth : Reader Code EthAddress := do
  let a ← byte
  let b ← byte
  let c ← byte
  let d ← byte
  let e ← byte
  let f ← byte
  pure ⟨#v[a, b, c, d, e, f]⟩

/- The loop over the VLAN tags, with the number of turns left. -/
def readVlan : Nat → UInt16 → Reader Code UInt16
  | 0, protocol => pure protocol
  | k + 1, protocol =>
    if isVlan protocol then do
      validate vlanHdrSize
      skip 2
      let protocol ← vreadU16
      readVlan k protocol
    else pure protocol

def readEthProtocol : Reader Code UInt16 := do
  let protocol ← vreadU16
  readVlan vlanMaxDepth protocol

/- One word of an address and its conversion to network order in place. -/
def readWord (order : ByteOrder) (a : IpAddress) (i : Nat) : Reader Code IpAddress := do
  let w ← vreadU32
  pure (a.setWord i (order.bytes (order.ntohl w)))

def readWords (order : ByteOrder) : Nat → Nat → IpAddress → Reader Code IpAddress
  | _, 0, a => pure a
  | i, k + 1, a => do
    let a ← readWord order a i
    readWords order (i + 1) k a

/- The protocol and the two addresses. The arguments are what the two unions hold before;
   an IPv4 packet sets the first word only. -/
def readIpv4Fields (order : ByteOrder) (ipSource ipDestination : IpAddress)
    (actualHeaderSize : Nat) : Reader Code (UInt8 × IpAddress × IpAddress) := do
  skip 9
  let ipProtocol ← vreadU8
  skip 2
  let ipSource ← readWord order ipSource 0
  let ipDestination ← readWord order ipDestination 0
  skip (actualHeaderSize - ipv4HdrSize)
  pure (ipProtocol, ipSource, ipDestination)

def readIpv4 (order : ByteOrder) (ipSource ipDestination : IpAddress) :
    Reader Code (UInt8 × IpAddress × IpAddress) := do
  validate ipv4HdrSize
  let b ← peek 0
  let actualHeaderSize := ((b &&& 0x0f) * 4).toNat
  if b &&& 0xf0 ≠ 0x40 ∨ actualHeaderSize < 20 then fail eFormErr
  else do
    validate actualHeaderSize
    readIpv4Fields order ipSource ipDestination actualHeaderSize

def readIpv6 (order : ByteOrder) (ipSource ipDestination : IpAddress) :
    Reader Code (UInt8 × IpAddress × IpAddress) := do
  validate ipv6HdrSize
  skip 6
  let ipProtocol ← vreadU8
  skip 1
  let ipSource ← readWords order 0 4 ipSource
  let ipDestination ← readWords order 0 4 ipDestination
  pure (ipProtocol, ipSource, ipDestination)

def readIp (order : ByteOrder) (ipSource ipDestination : IpAddress) (ethProtocol : UInt16) :
    Reader Code (Bool × UInt8 × IpAddress × IpAddress) :=
  if ethProtocol = ethPIp then do
    let p ← readIpv4 order ipSource ipDestination
    pure (true, p)
  else if ethProtocol = ethPIpv6 then do
    let p ← readIpv6 order ipSource ipDestination
    pure (false, p)
  else fail eNotImp

/- The ports, and the value left in the udp field of the buffer. -/
def readUdp (ipProtocol : UInt8) : Reader Code (UInt16 × UInt16 × UInt16) :=
  if ipProtocol = ipProtoUdp then do
    validate udpHdrSize
    let sourcePort ← vreadU16
    let destinationPort ← vreadU16
    let udp ← vreadU16
    skip 2
    pure (sourcePort, destinationPort, udp)
  else fail eNotImp

def read (order : ByteOrder) (ipSource ipDestination : IpAddress) :
    Reader Code (InPacket × UInt16) := do
  validate ethHdrSize
  let ethDestination ← readEth
  let ethSource ← readEth
  let ethProtocol ← readEthProtocol
  let (ipv4, ipProtocol, ipSource, ipDestination) ← readIp order ipSource ipDestination ethProtocol
  let (sourcePort, destinationPort, udp) ← readUdp ipProtocol
  pure ({ ethDestination, ethSource, ethProtocol, ipv4, ipSource, ipDestination, ipProtocol,
          sourcePort, destinationPort }, udp)

end InPacket

end DnsWrapper.Net
