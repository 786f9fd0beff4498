import DnsWrapper.DnsPacket
import DnsWrapper.PeerRequests
import DnsWrapper.Runs

/-! The forwarding server: requests go to every upstream server, the first reply goes back
to every client that asked. One event is one datagram handled by the server's thread. -/
namespace DnsWrapper.Dns
open NetCommon Bookkeeping
open scoped List
variable {E : Type}

structure ServerStats where
  queries : UInt32
  invalids : UInt32
  nosources : UInt32
  failed : UInt32
  latency : Int
  mma : Int

structure UpstreamServerInfo (E : Type) where
  endpoint : E
  ipv4 : Bool
  stats : ServerStats

structure DnsServer (E : Type) where
  servers : List (UpstreamServerInfo E)
  peerRequests : PeerRequests E

/- The places of the source that call sendPacket. -/
inductive SendKind where
  | refused | forwarded | relayed | redirected
  deriving DecidableEq

/- A datagram sent, as the arguments of sendPacket. -/
structure Sent (E : Type) where
  kind : SendKind
  packet : DnsPacket
  endpoint : E
  ipv4 : Bool

def oneHour : UInt32 := 1 * 60 * 60

/- PEER_CHECKING_DISABLED | PEER_AD_QUESTION | PEER_HAS_PSUEDO_HEADER -/
def peerFlagMask : UInt32 := 1 ||| 2 ||| 4
def fwdFlags : UInt32 := 0

/- addSource into any node. -/
def addSource (packet : DnsPacket) (endpoint : E) (ipv4 : Bool) : PeerSource E :=
  { endpoint, ipv4, originalId := packet.getId }

def refuse (packet : DnsPacket) (endpoint : E) (ipv4 : Bool) : Sent E :=
  ⟨.refused, packet.setResponseCode (UInt8.ofNat eRefused), endpoint, ipv4⟩

/- The memory of one DnsRecord after the lambda of updateRedirectResponse. -/
def redirectAnswer (target : IpAddress) (question : DnsQuestion) : DnsRecord :=
  let answer := { DnsRecord.updateFromQuestion question with ttl := oneHour }
  if question.type = qtA then { answer with len := 4, address := .ipv4 target.ipv4 }
  else if question.type = qtAAAA then
    let (n1, n2, n3, n4) := target.ipv6
    { answer with len := 16, address := .ipv6 n1 n2 n3 n4 }
  else answer

def updateRedirectResponse (packet : DnsPacket) (target : IpAddress) : DnsPacket :=
  (((packet.setAsQueryResponse).setAsAuthoritativeAnswer true).setRecursionAvailable true).setAnswers
    (redirectAnswer target)

theorem updateRedirectResponse_eq (packet : DnsPacket) (target : IpAddress) :
    updateRedirectResponse packet target =
      let p := ((packet.setAsQueryResponse).setAsAuthoritativeAnswer true).setRecursionAvailable true
      if packet.header.questionCount = 0 then p
      else { p with
        answers := packet.questionList.map (redirectAnswer target)
        header := { p.header with answerCount := packet.header.questionCount } } := rfl

theorem redirectAnswer_question (target : IpAddress) (q : DnsQuestion) :
    (redirectAnswer target q).toDnsQuestion = q ∧ (redirectAnswer target q).ttl = oneHour := by
  unfold redirectAnswer
  split_ifs <;> exact ⟨rfl, rfl⟩

namespace DnsServer

/- The loop at the end of resolve; sentTo is left at the last server. -/
def forward (s : DnsServer E) (packet : DnsPacket) (pr : PeerRequests E) (i : Nat)
    (r : PeerRequestRecord E) : DnsServer E × List (Sent E) :=
  ({ servers := s.servers.map fun server =>
      { server with stats := { server.stats with queries := server.stats.queries + 1 } },
     peerRequests := pr.setRecord i { r with sentTo := some (s.servers.length - 1) } },
   s.servers.map fun server => ⟨.forwarded, packet, server.endpoint, server.ipv4⟩)

variable [DecidableEq E]

def resolve (s : DnsServer E) (packet : DnsPacket) (endpoint : E) (ipv4 : Bool) (now : Int)
    (draws : List (Fin 0xffff)) (fresh : PeerRequestRecord E) :
    Option (DnsServer E × List (Sent E)) :=
  if s.servers.isEmpty then some (s, [])
  else
    match s.peerRequests.lookupByQuery packet.hash fwdFlags peerFlagMask with
    | some (i, r) =>
      if r.hasTimedOut = false then
        if addSource packet endpoint ipv4 ∈ r.sources then
          if now - r.time < 2 then some (s, [refuse packet endpoint ipv4]) else some (s, [])
        else
          match s.peerRequests.getNewPeerSource with
          | none => some (s, [refuse packet endpoint ipv4])
          | some pr =>
            let r := { r with additional := addSource packet endpoint ipv4 :: r.additional }
            some ({ s with peerRequests := pr.setRecord i r }, [])
      else some (s.forward packet (s.peerRequests.freePeerRequestRecord i r) i r.freed)
    | none =>
      match s.peerRequests.getNewRecord now false fresh with
      | (none, pr) => some ({ s with peerRequests := pr }, [refuse packet endpoint ipv4])
      | (some (i, r), pr) => do
        let id ← pr.getNewId draws
        let r := { r with
          source := addSource packet endpoint ipv4
          newId := id
          hash := packet.hash
          flags := fwdFlags }
        some (s.forward (packet.setId id) pr i r)

def updateStats (s : DnsServer E) (k : Nat) (f : ServerStats → ServerStats) : DnsServer E :=
  { s with servers := s.servers.modify k fun server => { server with stats := f server.stats } }

/- The statistics kept for a reply that has a record: failures and the moving average of
   the latency. -/
def replyStats (packet : DnsPacket) (now forwardTimestamp : Int) (stats : ServerStats) :
    ServerStats :=
  let failed :=
    if packet.getResponseCode ≠ UInt8.ofNat eNoError then stats.failed + 1 else stats.failed
  let mma :=
    if stats.latency = 0 then (now - forwardTimestamp) * 128
    else stats.mma + (now - forwardTimestamp - stats.latency)
  { stats with failed, mma, latency := mma.tdiv 128 }

/- The reply goes to each source of the record under the ID this source used. -/
def relay (packet : DnsPacket) (sources : List (PeerSource E)) : List (Sent E) :=
  sources.map fun source =>
    ⟨.relayed, (packet.setRecursionAvailable true).setId source.originalId, source.endpoint,
      source.ipv4⟩

def processUpstreamResponse (s : DnsServer E) (packet : DnsPacket) (endpoint : E) (now : Int) :
    DnsServer E × List (Sent E) :=
  match s.servers.findIdx? fun server => server.endpoint = endpoint with
  | none => (s, [])
  | some k =>
    if packet.validate .incomingResponse ≠ eNoError then
      (s.updateStats k fun stats => { stats with invalids := stats.invalids + 1 }, [])
    else
      match s.peerRequests.lookup packet.getId packet.hash with
      | none => (s.updateStats k fun stats => { stats with nosources := stats.nosources + 1 }, [])
      | some (i, r) =>
        let s := s.updateStats k (replyStats packet now r.forwardTimestamp)
        ({ s with peerRequests := s.peerRequests.freePeerRequestRecord i r },
          relay packet r.sources)

/- Redirect; the state of the server is not touched. -/
def redirect (packet : DnsPacket) (endpoint : E) (ipv4 : Bool) (target : IpAddress) :
    List (Sent E) :=
  [⟨.redirected, updateRedirectResponse packet target, endpoint, ipv4⟩]

end DnsServer

/- What the server's thread handles, with the clock, the random numbers and the memory
   that the handler finds. -/
inductive Event (E : Type) where
  | resolve (packet : DnsPacket) (endpoint : E) (ipv4 : Bool) (now : Int)
      (draws : List (Fin 0xffff)) (fresh : PeerRequestRecord E)
  | response (packet : DnsPacket) (endpoint : E) (now : Int)
  | redirect (packet : DnsPacket) (endpoint : E) (ipv4 : Bool) (target : IpAddress)

namespace DnsServer

variable [DecidableEq E]

def step (s : DnsServer E) : Event E → Option (DnsServer E × List (Sent E))
  | .resolve packet endpoint ipv4 now draws fresh =>
    s.resolve packet endpoint ipv4 now draws fresh
  | .response packet endpoint now => some (s.processUpstreamResponse packet endpoint now)
  | .redirect packet endpoint ipv4 target => some (s, redirect packet endpoint ipv4 target)

def start (servers : List (UpstreamServerInfo E)) : DnsServer E := ⟨servers, PeerRequests.empty⟩

def run (servers : List (UpstreamServerInfo E)) (es : List (Event E)) :
    Option (DnsServer E × List (List (Sent E))) := Runs.run step (start servers) es

end DnsServer
end DnsWrapper.Dns
