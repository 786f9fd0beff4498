import DnsWrapper.DnsQuestion

/-! Resource records: the fixed fields after the owner name and the RDATA shapes that
Read, Validate and Write know. -/
namespace DnsWrapper.Dns
open ByteReader ByteWriter ByteWord NetCommon

inductive DnsRecordType where
  | answer | authority | additional
  deriving DecidableEq

/- The Address union. Records are value-initialised, so a member that was never
   written reads as zero; zero is a union no member of which was written. -/
inductive Address where
  | zero
  | ipv4 (n : UInt32)
  | ns (name : CString)
  | cName (name : CString)
  | mailExchange (priority : UInt16) (host : CString)
  | ipv6 (n1 n2 n3 n4 : UInt32)
  | opt (octets : List UInt8)
  deriving DecidableEq, Repr

/- The members of the union, as Write reads them. -/
namespace Address

def asIpv4 : Address → UInt32
  | ipv4 n => n
  | _ => 0

def asNS : Address → CString
  | ns name => name
  | _ => CString.empty

def asCName : Address → CString
  | cName name => name
  | _ => CString.empty

def asMailExchange : Address → UInt16 × CString
  | mailExchange priority host => (priority, host)
  | _ => (0, CString.empty)

def asIpv6 : Address → UInt32 × UInt32 × UInt32 × UInt32
  | ipv6 n1 n2 n3 n4 => (n1, n2, n3, n4)
  | _ => (0, 0, 0, 0)

end Address

structure DnsRecord extends DnsQuestion where
  ttl : UInt32
  len : UInt16
  address : Address
  deriving DecidableEq, Repr

namespace DnsRecord

/- The switch over Type in Read. -/
def readAddress (recordType : DnsRecordType) (type len : UInt16) : Reader Code Address :=
  if type = qtA then do
    let n ← vreadU32
    pure (.ipv4 n)
  else if type = qtNS then do
    let name ← readLabel CString.empty
    pure (.ns name)
  else if type = qtCName then do
    let name ← readLabel CString.empty
    pure (.cName name)
  else if type = qtMX then do
    let priority ← vreadU16
    let host ← readLabel CString.empty
    pure (.mailExchange priority host)
  else if type = qtAAAA then do
    let n1 ← vreadU32
    let n2 ← vreadU32
    let n3 ← vreadU32
    let n4 ← vreadU32
    pure (.ipv6 n1 n2 n3 n4)
  else if type = qtOpt then
    if recordType ≠ .additional then fail eFormErr
    else do
      let octets ← each (fun _ => vreadByte) 0 len.toNat
      pure (.opt octets)
  else fail eServFail

def read (recordType : DnsRecordType) : Reader Code DnsRecord := do
  let q ← DnsQuestion.read CString.empty
  let ttl ← vreadU32
  let len ← vreadU16
  let address ← readAddress recordType q.type len
  pure { q with ttl, len, address }

def validate (r : DnsRecord) (pt : PacketType) : Code :=
  let code := r.toDnsQuestion.validate pt
  if code ≠ eNoError then code
  else if r.type = qtA then if r.len ≠ 4 then eFormErr else eNoError
  else if r.type = qtAAAA then if r.len ≠ 16 then eFormErr else eNoError
  else eNoError

/- The switch over Type in Write; a Type without a case writes nothing. -/
def writeAddress (r : DnsRecord) : Writer :=
  if r.type = qtA then writeU32 r.address.asIpv4
  else if r.type = qtNS then writeLabel r.address.asNS
  else if r.type = qtCName then writeLabel r.address.asCName
  else if r.type = qtMX then
    andThen (writeU16 r.address.asMailExchange.1) (writeLabel r.address.asMailExchange.2)
  else if r.type = qtAAAA then
    let (n1, n2, n3, n4) := r.address.asIpv6
    andThen (writeU32 n1) (andThen (writeU32 n2) (andThen (writeU32 n3) (writeU32 n4)))
  else done

/- Everything Write puts before the RDATA; the last two bytes are RDLENGTH. -/
def writeFixed (r : DnsRecord) : Writer :=
  andThen r.toDnsQuestion.write (andThen (writeU32 r.ttl) (writeU16 r.len))

def write (r : DnsRecord) : Writer := andThen r.writeFixed r.writeAddress

/- A value-initialised record after UpdateFromQuestion. -/
def updateFromQuestion (q : DnsQuestion) : DnsRecord :=
  { q with ttl := 0, len := 0, address := .zero }

end DnsRecord
end DnsWrapper.Dns
