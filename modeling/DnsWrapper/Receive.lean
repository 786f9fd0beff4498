import DnsWrapper.EthFrame
import DnsWrapper.EthMappings
import DnsWrapper.DnsServer
import DnsWrapper.RuleEvaluate

/-! A datagram on its way through the server: receive, the two handlers, the rules and the
table of machines. Every datagram is at most one event of the forwarding server. -/
namespace DnsWrapper.Dns
open ByteReader NetCommon Net Bookkeeping Shm

structure Endpoint where
  address : WireAddress
  port : UInt16
  deriving DecidableEq

/- sizeof(DnsHeader) with 64-bit pointers: the one to the virtual functions, twelve bytes of
   members, four of padding. -/
def sizeofDnsHeader : Nat := 8 + 12 + 4

/- One call of the receive callback: the error code (true is an error), the receive buffer,
   the number of bytes that arrived and the sender, and what the handlers take from elsewhere:
   the clock, the random numbers and the memory that new objects find. -/
structure Datagram where
  ec : Bool
  buf : List UInt8
  n : Nat
  endpoint : Endpoint
  now : Int
  draws : List (Fin 0xffff)
  fresh : PeerRequestRecord Endpoint
  garbage : Nat → CString

namespace Datagram

/- The socket the datagram came over. -/
def ipv4 (d : Datagram) : Bool := d.endpoint.address.isV4

def read (d : Datagram) : Except (Stop Code) (DnsPacket × Nat) :=
  (DnsPacket.read d.garbage).run d.buf d.n 0

end Datagram

/- Where receive passes a datagram to. -/
inductive Route where
  | dropped
  | malformed (code : Code)
  | request (packet : DnsPacket)
  | response (packet : DnsPacket)

/- receive up to the call of a handler; none is a read outside the buffer. -/
def route (d : Datagram) : Option Route :=
  if d.ec then some .dropped
  else if d.n < sizeofDnsHeader then some .dropped
  else if d.endpoint.port = 0 then some .dropped
  else match d.read with
    | .error (.failed code) => some (.malformed code)
    | .error _ => none
    | .ok (packet, _) => if packet.isRequest then some (.request packet) else some (.response packet)

/- The members of DnsServer that a datagram reaches. -/
structure Service where
  dns : DnsServer Endpoint
  ethmappings : EthMappings
  rules : RuleData

/- The call on the server that an action of the rules is. -/
def Datagram.event (d : Datagram) (packet : DnsPacket) : Action → Event Endpoint
  | .resolve => .resolve packet d.endpoint d.ipv4 d.now d.draws d.fresh
  | .redirect target => .redirect packet d.endpoint d.ipv4 target

namespace Service

/- What processRequest gives to the rules: the address in a union of zeros and the MAC address
   found for it, zeros if there is none. -/
def input (s : Service) (d : Datagram) : Input :=
  let ipaddr := d.endpoint.address.store ⟨Vector.replicate 16 0⟩
  { ipv4 := d.ipv4, ipaddr
    ethaddr := match s.ethmappings.lookUp ipaddr d.ipv4 with
      | some r => r.ethaddress
      | none => ⟨Vector.replicate 6 0⟩ }

def processRequest (s : Service) (d : Datagram) (packet : DnsPacket) :
    Option (Service × List (Sent Endpoint)) :=
  -- updateErrorResponse turns the packet into an answer, which nothing sends
  if packet.validate .incomingRequest ≠ eNoError then some (s, [])
  else do
    let (_, actions) ← s.rules.evaluate (s.input d)
    let (dns, sent) ← Runs.run DnsServer.step s.dns (actions.map (d.event packet))
    pure ({ s with dns }, sent.flatten)

def processUpstreamResponse (s : Service) (d : Datagram) (packet : DnsPacket) :
    Service × List (Sent Endpoint) :=
  let (dns, sent) := s.dns.processUpstreamResponse packet d.endpoint d.now
  ({ s with dns }, sent)

def receive (s : Service) (d : Datagram) : Option (Service × List (Sent Endpoint)) := do
  match ← route d with
  | .dropped => pure (s, [])
  -- here too updateErrorResponse is followed by return
  | .malformed _ => pure (s, [])
  | .request packet => s.processRequest d packet
  | .response packet => pure (s.processUpstreamResponse d packet)

/-- A datagram leaves the machines and the rules as they are, and what it does to the
forwarding server and sends are events of that server. -/
theorem receive_events {s s' : Service} {d : Datagram} {sent : List (Sent Endpoint)}
    (h : s.receive d = some (s', sent)) :
    s'.ethmappings = s.ethmappings ∧ s'.rules = s.rules ∧
      ∃ es os, Runs.run DnsServer.step s.dns es = some (s'.dns, os) ∧ os.flatten = sent := by
  obtain ⟨r, _, h⟩ := Option.bind_eq_some_iff.mp h
  cases r with
  | dropped =>
    cases h
    exact ⟨rfl, rfl, [], [], rfl, rfl⟩
  | malformed code =>
    cases h
    exact ⟨rfl, rfl, [], [], rfl, rfl⟩
  | request packet =>
    simp only [processRequest] at h
    split at h
    · cases h
      exact ⟨rfl, rfl, [], [], rfl, rfl⟩
    · obtain ⟨⟨_, actions⟩, _, h⟩ := Option.bind_eq_some_iff.mp h
      obtain ⟨⟨dns, os⟩, hrun, h⟩ := Option.bind_eq_some_iff.mp h
      cases h
      exact ⟨rfl, rfl, _, os, hrun, rfl⟩
  | response packet =>
    cases h
    exact ⟨rfl, rfl, [.response packet d.endpoint d.now], [_], rfl, List.append_nil _⟩

/-- So any sequence of datagrams is a run of the forwarding server. -/
theorem receive_run {s s' : Service} {ds : List Datagram} {outs : List (List (Sent Endpoint))}
    (h : Runs.run receive s ds = some (s', outs)) :
    ∃ es os, Runs.run DnsServer.step s.dns es = some (s'.dns, os) ∧ os.flatten = outs.flatten := by
  induction ds generalizing s outs with
  | nil =>
    cases h
    exact ⟨[], [], rfl, rfl⟩
  | cons d ds ih =>
    obtain ⟨u, o, outs', hstep, hrest, rfl⟩ := Runs.run_cons h
    obtain ⟨_, _, es, os, hrun, ho⟩ := receive_events hstep
    obtain ⟨es', os', hrun', ho'⟩ := ih hrest
    refine ⟨es ++ es', os ++ os', Runs.run_append hrun hrun', ?_⟩
    rw [List.flatten_append, ho, ho', List.flatten_cons]

end Service

/- Read returns E_NOERROR. -/
def Accepted (d : Datagram) : Prop := ∃ packet pos, d.read = .ok (packet, pos)

/- The packet goes to processRequest if QR = 0, to processUpstreamResponse if QR = 1. -/
def Handed (d : Datagram) : Prop :=
  ∃ packet : DnsPacket, (packet.header.getQueryResponse = false ∧ route d = some (.request packet)) ∨
    (packet.header.getQueryResponse = true ∧ route d = some (.response packet))

theorem route_short {d : Datagram} (hec : d.ec = false) (hn : d.n < sizeofDnsHeader) :
    route d = some .dropped := by
  rw [route, if_neg (by rw [hec]; decide), if_pos hn]

theorem route_long {d : Datagram} (hec : d.ec = false) (hport : d.endpoint.port ≠ 0)
    (hn : sizeofDnsHeader ≤ d.n) :
    route d = match d.read with
      | .error (.failed code) => some (.malformed code)
      | .error _ => none
      | .ok (packet, _) =>
        if packet.isRequest then some (.request packet) else some (.response packet) := by
  rw [route, if_neg (by rw [hec]; decide), if_neg (Nat.not_lt.mpr hn), if_neg hport]

theorem handed_of_accepted {d : Datagram} (hec : d.ec = false) (hport : d.endpoint.port ≠ 0)
    (hn : sizeofDnsHeader ≤ d.n) (h : Accepted d) : Handed d := by
  obtain ⟨packet, pos, hread⟩ := h
  refine ⟨packet, ?_⟩
  rw [route_long hec hport hn, hread]
  cases hqr : packet.header.getQueryResponse with
  | false => exact .inl ⟨rfl, by simp [DnsPacket.isRequest, hqr]⟩
  | true => exact .inr ⟨rfl, by simp [DnsPacket.isRequest, hqr]⟩

theorem accepted_of_handed {d : Datagram} (h : Handed d) : Accepted d := by
  obtain ⟨packet, h⟩ := h
  have hroute : route d = some (.request packet) ∨ route d = some (.response packet) := by
    cases h with
    | inl h => exact .inl h.2
    | inr h => exact .inr h.2
  unfold route at hroute
  cases hread : d.read with
  | ok v => exact ⟨v.1, v.2, hread⟩
  | error e =>
    rw [hread] at hroute
    split_ifs at hroute <;> cases e <;> simp at hroute

/-- Datagrams from a port are handed on exactly if Read accepts them, but for those that Read
accepts and that are shorter than the object for the header. -/
theorem handed_iff (d : Datagram) (hec : d.ec = false) (hport : d.endpoint.port ≠ 0) :
    (Handed d ↔ Accepted d) ↔ sizeofDnsHeader ≤ d.n ∨ ¬ Accepted d := by
  constructor
  · intro hiff
    by_cases hn : sizeofDnsHeader ≤ d.n
    · exact .inl hn
    · right
      intro hacc
      obtain ⟨packet, h⟩ := hiff.mpr hacc
      rw [route_short hec (Nat.lt_of_not_le hn)] at h
      simp at h
  · intro hor
    refine ⟨accepted_of_handed, fun hacc => ?_⟩
    exact handed_of_accepted hec hport (hor.resolve_right fun hno => hno hacc) hacc

/- A datagram from port 40000 of 10.0.0.9 in an otherwise empty buffer. -/
def arrived (bytes : List UInt8) : Datagram where
  ec := false
  buf := bytes ++ List.replicate (maxPacketSz - bytes.length) 0
  n := bytes.length
  endpoint := ⟨.v4 sampleHost, 40000⟩
  now := 100
  draws := [firstDraw]
  fresh := ⟨⟨⟨.v4 #v[0, 0, 0, 0], 0⟩, true, 0⟩, [], none, 0, 0, 0, 0, [], false⟩
  garbage _ := CString.empty

/- The query for the name servers of the root: one question of five bytes. -/
def rootQuery : List UInt8 := [0, 7, 1, 0, 0, 1, 0, 0, 0, 0, 0, 0, 0, 0, 2, 0, 1]

def rootPacket : DnsPacket where
  header := ⟨7, 1, 0, 1, 0, 0, 0⟩
  questions := [⟨CString.empty, qtNS, 1⟩]
  answers := []
  authorities := []
  additionals := []

theorem rootQuery_read : (arrived rootQuery).read = .ok (rootPacket, 17) := by
  rfl

/-- Read accepts its seventeen bytes, and receive drops it. -/
theorem root_query_dropped :
    (arrived rootQuery).ec = false ∧ (arrived rootQuery).endpoint.port ≠ 0 ∧
      rootPacket.validate .incomingRequest = eNoError ∧ Accepted (arrived rootQuery) ∧
      route (arrived rootQuery) = some .dropped ∧ ¬ Handed (arrived rootQuery) := by
  have hroute : route (arrived rootQuery) = some .dropped := route_short rfl (by decide)
  refine ⟨rfl, by decide, by decide, ⟨_, _, rootQuery_read⟩, hroute, ?_⟩
  rintro ⟨packet, h⟩
  rw [hroute] at h
  simp at h

/- The same question for a name of seven letters, long enough. -/
def namedQuery : List UInt8 :=
  [0, 7, 1, 0, 0, 1, 0, 0, 0, 0, 0, 0, 7, 101, 120, 97, 109, 112, 108, 101, 0, 0, 2, 0, 1]

theorem handed_iff_namedQuery : (Handed (arrived namedQuery) ↔ Accepted (arrived namedQuery)) ∧
    sizeofDnsHeader ≤ (arrived namedQuery).n :=
  have hn : sizeofDnsHeader ≤ (arrived namedQuery).n := by decide
  ⟨(handed_iff (arrived namedQuery) rfl (by decide)).mpr (.inl hn), hn⟩

/-- One datagram is sent, to the sender, an answer with this ID and response code, and the table
of requests is as before. -/
def ErrorAnswered (s : Service) (d : Datagram) (id : UInt16) (code : Code) : Prop :=
  ∃ s' reply, s.receive d = some (s', [reply]) ∧ reply.endpoint = d.endpoint ∧
    reply.packet.getId = id ∧ reply.packet.header.getQueryResponse = true ∧
    reply.packet.getResponseCode = UInt8.ofNat code ∧
    s'.dns.peerRequests = s.dns.peerRequests

theorem header_of_read {d : Datagram} {h : DnsHeader}
    (hheader : DnsHeader.read.run d.buf d.n 0 = .ok (h, DnsHeader.headerSize)) {packet : DnsPacket}
    {pos : Nat} (hread : d.read = .ok (packet, pos)) : packet.header = h := by
  obtain ⟨header, q₀, hh, hread⟩ := bind_eq_ok.mp hread
  obtain ⟨questions, q₁, _, hread⟩ := bind_eq_ok.mp hread
  obtain ⟨answers, q₂, _, hread⟩ := bind_eq_ok.mp hread
  obtain ⟨authorities, q₃, _, hread⟩ := bind_eq_ok.mp hread
  obtain ⟨additionals, q₄, _, hread⟩ := bind_eq_ok.mp hread
  cases hread
  rw [hheader] at hh
  cases hh
  rfl

theorem silent_malformed {d : Datagram} {code : Code} (h : route d = some (.malformed code))
    (s : Service) : s.receive d = some (s, []) := by
  simp [Service.receive, h]

theorem silent_invalid {d : Datagram} {packet : DnsPacket} (h : route d = some (.request packet))
    (hvalid : packet.validate .incomingRequest ≠ eNoError) (s : Service) :
    s.receive d = some (s, []) := by
  simp [Service.receive, h, Service.processRequest, hvalid]

theorem not_errorAnswered {s : Service} {d : Datagram} (h : s.receive d = some (s, []))
    (id : UInt16) (code : Code) : ¬ ErrorAnswered s d id code := by
  rintro ⟨s', reply, hreceive, _⟩
  rw [h] at hreceive
  cases hreceive

/-- No request that Read or Validate refuses is answered: whatever it is, nothing is sent, and
the state of the server is as before. -/
theorem refused_request_unanswered (s : Service) (d : Datagram) (hec : d.ec = false)
    (hport : d.endpoint.port ≠ 0) (hn : sizeofDnsHeader ≤ d.n) (h : DnsHeader)
    (hheader : DnsHeader.read.run d.buf d.n 0 = .ok (h, DnsHeader.headerSize))
    (hqr : h.getQueryResponse = false) :
    (∀ code, d.read = .error (.failed code) →
      s.receive d = some (s, []) ∧ ¬ ErrorAnswered s d h.id eFormErr) ∧
    ∀ packet pos c, d.read = .ok (packet, pos) → packet.validate .incomingRequest = c →
      c ≠ eNoError → s.receive d = some (s, []) ∧ ¬ ErrorAnswered s d h.id c := by
  have hroute := route_long hec hport hn
  constructor
  · intro code hread
    rw [hread] at hroute
    have hsilent := silent_malformed hroute s
    exact ⟨hsilent, not_errorAnswered hsilent h.id eFormErr⟩
  · intro packet pos c hread hc hne
    have hrequest : packet.isRequest = true := by
      rw [DnsPacket.isRequest, header_of_read hheader hread, hqr]
      rfl
    rw [hread] at hroute
    simp only [hrequest, if_true] at hroute
    have hsilent := silent_invalid hroute (hc.symm ▸ hne) s
    exact ⟨hsilent, not_errorAnswered hsilent h.id c⟩

/- A server without upstream servers, machines and rules. -/
def idleService : Service where
  dns := DnsServer.start []
  ethmappings := .noMachines
  rules := RuleData.zeroed

/- The query above without its last byte, and a header that announces nothing with twelve
   bytes behind it. -/
def cutQuery : List UInt8 := namedQuery.take 24
def emptyQuery : List UInt8 := [0, 7, 1] ++ List.replicate 21 0

theorem cutQuery_read : (arrived cutQuery).read = .error (.failed eFormErr) := by
  rfl

theorem emptyQuery_read : (arrived emptyQuery).read = .ok (⟨⟨7, 1, 0, 0, 0, 0, 0⟩, [], [], [], []⟩, 12) := by
  rfl

theorem refused_request_unanswered_cutQuery :
    (arrived cutQuery).read = .error (.failed eFormErr) ∧
      ¬ ErrorAnswered idleService (arrived cutQuery) 7 eFormErr := by
  refine ⟨cutQuery_read, ?_⟩
  have h := refused_request_unanswered idleService (arrived cutQuery) rfl (by decide) (by decide)
    ⟨7, 1, 0, 1, 0, 0, 0⟩ rfl rfl
  exact (h.1 eFormErr cutQuery_read).2

/-- Neither the cut query, which Read refuses, nor the empty one, which Validate refuses, is
answered. -/
theorem malformed_queries_unanswered :
    sizeofDnsHeader ≤ (arrived cutQuery).n ∧ sizeofDnsHeader ≤ (arrived emptyQuery).n ∧
      (arrived cutQuery).endpoint.port ≠ 0 ∧ (arrived emptyQuery).endpoint.port ≠ 0 ∧
      (arrived cutQuery).read = .error (.failed eFormErr) ∧
      (∃ packet pos, (arrived emptyQuery).read = .ok (packet, pos) ∧
        packet.validate .incomingRequest = eFormErr) ∧
      idleService.receive (arrived cutQuery) = some (idleService, []) ∧
      idleService.receive (arrived emptyQuery) = some (idleService, []) ∧
      ¬ ErrorAnswered idleService (arrived cutQuery) 7 eFormErr ∧
      ¬ ErrorAnswered idleService (arrived emptyQuery) 7 eFormErr := by
  have hcut : idleService.receive (arrived cutQuery) = some (idleService, []) := by
    have hroute : route (arrived cutQuery) = some (.malformed eFormErr) := by
      rw [route_long rfl (by decide) (by decide), cutQuery_read]
    exact silent_malformed hroute idleService
  have hempty : idleService.receive (arrived emptyQuery) = some (idleService, []) := by
    have hroute : route (arrived emptyQuery) =
        some (.request ⟨⟨7, 1, 0, 0, 0, 0, 0⟩, [], [], [], []⟩) := by
      rw [route_long rfl (by decide) (by decide), emptyQuery_read]
      rfl
    exact silent_invalid hroute (by decide) idleService
  exact ⟨by decide, by decide, by decide, by decide, cutQuery_read, ⟨_, _, emptyQuery_read, by decide⟩,
    hcut, hempty, not_errorAnswered hcut _ _, not_errorAnswered hempty _ _⟩

end DnsWrapper.Dns
