import DnsWrapper.RequestIds

/-! A reply from upstream, with everything it does not touch. Either a record in use waits for
it and every source of this record gets it once, or nothing happens to the requests at all.
Sources are values here; nodes_refine_lists ties the lists of them to the nodes in memory. Whether
a reply leaves as bytes is replyTo_fits_iff. -/
namespace DnsWrapper.Dns
open NetCommon Bookkeeping PeerRequests
variable {E : Type}

/- A datagram from a configured server that passes Validate and that record number i waits
   for, by ID and by digest. -/
structure Awaited (servers : List (UpstreamServerInfo E)) (s : DnsServer E) (packet : DnsPacket)
    (endpoint : E) (i : Nat) (r : PeerRequestRecord E) : Prop where
  configured : ∃ server ∈ servers, server.endpoint = endpoint
  valid : packet.validate .incomingResponse = eNoError
  place : s.records[i]? = some r
  inUse : r.inUse = true
  id : r.newId = packet.getId
  hash : r.hash = packet.hash

/- The reply as one source gets it. -/
def replyTo (packet : DnsPacket) (source : PeerSource E) : Sent E where
  kind := .relayed
  packet := { packet with
    header := { packet.header with id := source.originalId, hb4 := packet.header.hb4 ||| 0x80 } }
  endpoint := source.endpoint
  ipv4 := source.ipv4

/- What the state is after the reply for record number i. -/
structure Answered (s s' : DnsServer E) (i : Nat) (r : PeerRequestRecord E) : Prop where
  records : s'.records = s.records.set i { r with additional := [], sentTo := none, flags := 0 }
  sources : s'.peerRequests.sources = r.additional ++ s.peerRequests.sources
  sourceCount : s'.peerRequests.sourceCount = s.peerRequests.sourceCount

namespace DnsServer

theorem relay_eq (packet : DnsPacket) (sources : List (PeerSource E)) :
    relay packet sources = sources.map (replyTo packet) := rfl

theorem configured_iff {servers : List (UpstreamServerInfo E)} {s : DnsServer E}
    (h : s.endpoints = (start servers).endpoints) (endpoint : E) :
    (∃ server ∈ servers, server.endpoint = endpoint) ↔
      ∃ server ∈ s.servers, server.endpoint = endpoint := by
  have hmap : ∀ t : DnsServer E, (∃ server ∈ t.servers, server.endpoint = endpoint) ↔
      endpoint ∈ t.endpoints.map Prod.fst := by
    intro t
    simp [endpoints]
  rw [hmap s, h, ← hmap]
  rfl

variable [DecidableEq E]

theorem processUpstreamResponse_awaited {s : DnsServer E} (hs : Separated s) {packet : DnsPacket}
    {endpoint : E} (now : Int) {i : Nat} {r : PeerRequestRecord E}
    (h : Awaited s.servers s packet endpoint i r) :
    ∃ s', s.processUpstreamResponse packet endpoint now = (s', r.sources.map (replyTo packet)) ∧
      Answered s s' i r := by
  have hlookup : s.peerRequests.lookup packet.getId packet.hash = some (i, r) := by
    refine find_unique h.place (by simp [h.inUse, h.id, h.hash]) ?_
    intro j x hx haccept
    simp only [Bool.and_eq_true, beq_iff_eq] at haccept
    exact place_unique hs.ids hx h.place haccept.1.1 h.inUse (haccept.1.2.trans h.id.symm)
  unfold processUpstreamResponse
  cases hk : s.servers.findIdx? fun server => server.endpoint = endpoint with
  | none =>
    obtain ⟨server, hmem, heq⟩ := h.configured
    have hne := List.findIdx?_eq_none_iff.mp hk server hmem
    simp [heq] at hne
  | some k =>
    simp only [h.valid, ne_eq, not_true_eq_false, if_false, hlookup, relay_eq]
    exact ⟨_, rfl, rfl, rfl, rfl⟩

theorem processUpstreamResponse_dropped {s : DnsServer E} {packet : DnsPacket}
    {endpoint : E} (now : Int) (h : ¬ ∃ i r, Awaited s.servers s packet endpoint i r) :
    ∃ s', s.processUpstreamResponse packet endpoint now = (s', []) ∧
      s'.peerRequests = s.peerRequests := by
  unfold processUpstreamResponse
  cases hk : s.servers.findIdx? fun server => server.endpoint = endpoint with
  | none => exact ⟨s, rfl, rfl⟩
  | some k =>
    by_cases hvalid : packet.validate .incomingResponse = eNoError
    · cases hlookup : s.peerRequests.lookup packet.getId packet.hash with
      | none =>
        simp only [hvalid, ne_eq, not_true_eq_false, if_false]
        exact ⟨_, rfl, rfl⟩
      | some x =>
        exfalso
        apply h
        obtain ⟨hlt, hend, _⟩ := List.findIdx?_eq_some_iff_getElem.mp hk
        obtain ⟨_, hget, haccept⟩ := find_some hlookup
        simp only [Bool.and_eq_true, beq_iff_eq] at haccept
        exact ⟨x.1, x.2, ⟨_, List.getElem_mem hlt, of_decide_eq_true hend⟩, hvalid, hget,
          haccept.1.1, haccept.1.2, haccept.2⟩
    · simp only [hvalid, ne_eq, not_false_eq_true, if_true]
      exact ⟨_, rfl, rfl⟩

/-- In every reachable state a reply that a record waits for goes to each source of this record
once, under the ID this source used, and changes this record and the pool only; every other
datagram from upstream sends nothing and changes none of the requests. -/
theorem reply_relayed_or_dropped (servers : List (UpstreamServerInfo E)) (es : List (Event E))
    (s : DnsServer E) (os : List (List (Sent E))) (hrun : run servers es = some (s, os))
    (packet : DnsPacket) (endpoint : E) (now : Int) :
    ∃ s' sent, s.step (.response packet endpoint now) = some (s', sent) ∧
      (∀ i r, Awaited servers s packet endpoint i r →
        sent = r.sources.map (replyTo packet) ∧ Answered s s' i r) ∧
      ((¬ ∃ i r, Awaited servers s packet endpoint i r) →
        sent = [] ∧ s'.peerRequests = s.peerRequests) := by
  have hservers := configured_iff (endpoints_run hrun) endpoint
  have hsep := (separated_run hrun).2
  have hawaited : ∀ i r, Awaited servers s packet endpoint i r ↔
      Awaited s.servers s packet endpoint i r := by
    intro i r
    exact ⟨fun h => { h with configured := hservers.mp h.configured },
      fun h => { h with configured := hservers.mpr h.configured }⟩
  obtain ⟨s', sent, hout⟩ :
      ∃ s' sent, s.processUpstreamResponse packet endpoint now = (s', sent) := ⟨_, _, rfl⟩
  refine ⟨s', sent, congrArg some hout, ?_, ?_⟩
  · intro i r h
    obtain ⟨t, heq, hanswered⟩ := processUpstreamResponse_awaited hsep now ((hawaited i r).mp h)
    rw [hout] at heq
    cases heq
    exact ⟨rfl, hanswered⟩
  · intro h
    have hnone : ¬ ∃ i r, Awaited s.servers s packet endpoint i r := by
      rintro ⟨i, r, hr⟩
      exact h ⟨i, r, (hawaited i r).mpr hr⟩
    obtain ⟨t, heq, hsame⟩ := processUpstreamResponse_dropped now hnone
    rw [hout] at heq
    cases heq
    exact ⟨rfl, hsame⟩

/- The answer of the one server to the request of the two clients. -/
def sampleAnswer : DnsPacket := { sampleQuery 1 with header := ⟨1, 0x81, 0, 1, 0, 0, 0⟩ }

theorem reply_relayed_twoClients :
    ∃ s os, run sampleServers twoClients = some (s, os) ∧
      ∃ s' sent, s.step (.response sampleAnswer 0 7) = some (s', sent) ∧
        sent.map (fun d => (d.endpoint, d.packet.getId)) = [(1, 7), (2, 7)] ∧
        ∀ i r, Awaited sampleServers s sampleAnswer 0 i r →
          sent = r.sources.map (replyTo sampleAnswer) ∧ Answered s s' i r := by
  have hrun : (run sampleServers twoClients).map (fun x =>
      (x.1.step (.response sampleAnswer 0 7)).map fun y =>
        y.2.map fun d => (d.endpoint, d.packet.getId)) = some (some [(1, 7), (2, 7)]) := by
    decide +kernel
  obtain ⟨⟨s, os⟩, hs, hsent⟩ := Option.map_eq_some_iff.mp hrun
  obtain ⟨s', sent, hstep, hawaited, _⟩ :=
    reply_relayed_or_dropped sampleServers twoClients s os hs sampleAnswer 0 7
  rw [hstep] at hsent
  exact ⟨s, os, hs, s', sent, hstep, Option.some.inj hsent, hawaited⟩

end DnsServer
end DnsWrapper.Dns
