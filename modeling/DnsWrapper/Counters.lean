import DnsWrapper.ClientAnswers

/-! The statistics of the upstream servers, against what an observer of the traffic counts. -/
namespace DnsWrapper.Dns
open NetCommon Net Bookkeeping
open Runs (run)

/- What happened with what was sent on it, in order. -/
abbrev Traffic : Type := List (Happening × List (Sent Endpoint))

/- Queries were forwarded. -/
def isForward (x : Happening × List (Sent Endpoint)) : Bool :=
  x.2.any fun d => d.kind = .forwarded

/- The reply that a happening brings from the server with number k, the first with its endpoint. -/
def Happening.replyFrom (servers : List (UpstreamServerInfo Endpoint)) (k : Nat) :
    Happening → Option DnsPacket
  | .datagram d =>
    match route d with
    | some (.response packet) =>
      if servers.findIdx? (fun server => server.endpoint = d.endpoint) = some k then some packet
      else none
    | _ => none
  | _ => none

/- The server with number k replied, and the reply with what was sent on it is of a kind. -/
def isReply (servers : List (UpstreamServerInfo Endpoint)) (k : Nat)
    (kind : DnsPacket → List (Sent Endpoint) → Bool) (x : Happening × List (Sent Endpoint)) : Bool :=
  (x.1.replyFrom servers k).any fun packet => kind packet x.2

section Kinds
variable {E : Type}

def isInvalid (packet : DnsPacket) (_ : List (Sent E)) : Bool :=
  packet.validate .incomingResponse ≠ eNoError

/- Valid, and passed on to nobody. -/
def isUnasked (packet : DnsPacket) (sent : List (Sent E)) : Bool :=
  packet.validate .incomingResponse = eNoError ∧ sent.isEmpty

/- Passed on with a response code other than E_NOERROR. -/
def isFailure (packet : DnsPacket) (sent : List (Sent E)) : Bool :=
  packet.validate .incomingResponse = eNoError ∧ sent.isEmpty = false ∧
    packet.getResponseCode ≠ UInt8.ofNat eNoError

/-- One step adds these numbers to the counters of a server. -/
structure Adds (before after : ServerStats) (queries invalids nosources failed : Nat) : Prop where
  queries : after.queries = before.queries + UInt32.ofNat queries
  invalids : after.invalids = before.invalids + UInt32.ofNat invalids
  nosources : after.nosources = before.nosources + UInt32.ofNat nosources
  failed : after.failed = before.failed + UInt32.ofNat failed

theorem Adds.refl (stats : ServerStats) : Adds stats stats 0 0 0 0 :=
  ⟨(UInt32.add_zero _).symm, (UInt32.add_zero _).symm, (UInt32.add_zero _).symm,
    (UInt32.add_zero _).symm⟩

theorem Adds.trans {a b c : ServerStats} {q i n f q' i' n' f' : Nat} (h : Adds a b q i n f)
    (h' : Adds b c q' i' n' f') : Adds a c (q + q') (i + i') (n + n') (f + f') where
  queries := by rw [h'.queries, h.queries, UInt32.add_assoc, ← UInt32.ofNat_add]
  invalids := by rw [h'.invalids, h.invalids, UInt32.add_assoc, ← UInt32.ofNat_add]
  nosources := by rw [h'.nosources, h.nosources, UInt32.add_assoc, ← UInt32.ofNat_add]
  failed := by rw [h'.failed, h.failed, UInt32.add_assoc, ← UInt32.ofNat_add]

namespace DnsServer
variable [DecidableEq E] {s s' : DnsServer E} {sent : List (Sent E)} {k : Nat}
  {server : UpstreamServerInfo E}

/-- Forwarding counts one query at every server. -/
theorem adds_request {e : Event E} (he : ∀ packet endpoint now, e ≠ .response packet endpoint now)
    (h : s.step e = some (s', sent)) (hk : s.servers[k]? = some server) :
    ∃ server', s'.servers[k]? = some server' ∧
      Adds server.stats server'.stats (sent.any fun d => d.kind = .forwarded).toNat 0 0 0 := by
  have hsame : s'.servers = s.servers → (sent.any fun d => d.kind = .forwarded) = false →
      ∃ server', s'.servers[k]? = some server' ∧
        Adds server.stats server'.stats (sent.any fun d => d.kind = .forwarded).toNat 0 0 0 :=
    fun hs hno => ⟨server, by rw [hs, hk], by rw [hno]; exact Adds.refl _⟩
  have hforward : ∀ packet pr i r, s.forward packet pr i r = (s', sent) →
      ∃ server', s'.servers[k]? = some server' ∧
        Adds server.stats server'.stats (sent.any fun d => d.kind = .forwarded).toNat 0 0 0 := by
    intro packet pr i r hfor
    cases hfor
    refine ⟨_, by rw [List.getElem?_map, hk, Option.map_some], ?_⟩
    have hany : ((s.servers.map fun server : UpstreamServerInfo E =>
        (⟨.forwarded, packet, server.endpoint, server.ipv4⟩ : Sent E)).any
          fun d => d.kind = .forwarded) = true := by
      rw [List.any_map, List.any_eq_true]
      exact ⟨server, List.mem_of_getElem? hk, rfl⟩
    rw [hany]
    exact ⟨rfl, (UInt32.add_zero _).symm, (UInt32.add_zero _).symm, (UInt32.add_zero _).symm⟩
  cases e with
  | resolve packet endpoint ipv4 now draws fresh =>
    cases resolve_exit h with
    | unconfigured hs => exact hsame rfl rfl
    | repeated hs hlookup ht hc hnow => exact hsame rfl rfl
    | waiting hs hlookup ht hc hnow => exact hsame rfl rfl
    | exhausted hs hlookup ht hc hnone => exact hsame rfl rfl
    | joined hs hlookup ht hc hpr => exact hsame rfl rfl
    | full hs hlookup hget => exact hsame rfl rfl
    | rearmed hs hlookup ht h => exact hforward _ _ _ _ h
    | opened hs hlookup hget hid h => exact hforward _ _ _ _ h
  | response packet endpoint now => exact absurd rfl (he packet endpoint now)
  | redirect packet endpoint ipv4 target =>
    cases h
    exact hsame rfl rfl

theorem replyStats_adds (packet : DnsPacket) (now forwardTimestamp : Int) (stats : ServerStats) :
    Adds stats (replyStats packet now forwardTimestamp stats) 0 0 0
      (decide (packet.getResponseCode ≠ UInt8.ofNat eNoError)).toNat where
  queries := (UInt32.add_zero _).symm
  invalids := (UInt32.add_zero _).symm
  nosources := (UInt32.add_zero _).symm
  failed := by
    by_cases hcode : packet.getResponseCode = UInt8.ofNat eNoError
    · simp [replyStats, hcode]
    · simp [replyStats, hcode]

/-- A reply is invalid, unasked, a failure or none of these. -/
theorem response_adds {packet : DnsPacket} {endpoint : E} {now : Int} {j : Nat}
    (hfind : (s.servers.findIdx? fun server => server.endpoint = endpoint) = some j)
    (h : s.processUpstreamResponse packet endpoint now = (s', sent)) :
    ∃ f, s'.servers = (s.updateStats j f).servers ∧ ∀ stats, Adds stats (f stats) 0
      (isInvalid packet sent).toNat (isUnasked packet sent).toNat (isFailure packet sent).toNat := by
  simp only [processUpstreamResponse, hfind] at h
  by_cases hv : packet.validate .incomingResponse = eNoError
  · simp only [hv, ne_eq, not_true_eq_false, if_false] at h
    cases hlook : s.peerRequests.lookup packet.getId packet.hash with
    | none =>
      simp only [hlook] at h
      cases h
      refine ⟨_, rfl, fun stats => ?_⟩
      constructor <;> simp [isInvalid, isUnasked, isFailure, hv]
    | some x =>
      simp only [hlook] at h
      cases h
      refine ⟨_, rfl, fun stats => ?_⟩
      have hadds := replyStats_adds packet now x.2.forwardTimestamp stats
      simpa [isInvalid, isUnasked, isFailure, hv, relay, PeerRequestRecord.sources] using hadds
  · rw [if_pos hv] at h
    cases h
    refine ⟨_, rfl, fun stats => ?_⟩
    constructor <;> simp [isInvalid, isUnasked, isFailure, hv]

/-- It counts at the server it comes from, the first with its endpoint. -/
theorem adds_response {packet : DnsPacket} {endpoint : E} {now : Int}
    (h : s.processUpstreamResponse packet endpoint now = (s', sent))
    (hk : s.servers[k]? = some server) :
    let own := decide ((s.servers.findIdx? fun server => server.endpoint = endpoint) = some k)
    ∃ server', s'.servers[k]? = some server' ∧ Adds server.stats server'.stats 0
      (own && isInvalid packet sent).toNat (own && isUnasked packet sent).toNat
      (own && isFailure packet sent).toNat := by
  intro own
  by_cases hown : (s.servers.findIdx? fun server => server.endpoint = endpoint) = some k
  · obtain ⟨f, hs', hadds⟩ := response_adds hown h
    refine ⟨{ server with stats := f server.stats }, ?_, ?_⟩
    · rw [hs', updateStats, List.getElem?_modify_eq, hk]
      rfl
    · have htrue : own = true := decide_eq_true hown
      rw [htrue]
      exact hadds server.stats
  · have hfalse : own = false := decide_eq_false hown
    have hsame : s'.servers[k]? = s.servers[k]? := by
      cases hfind : s.servers.findIdx? fun server => server.endpoint = endpoint with
      | none =>
        simp only [processUpstreamResponse, hfind] at h
        cases h
        rfl
      | some j =>
        obtain ⟨f, hs', _⟩ := response_adds hfind h
        have hjk : j ≠ k := fun heq => hown (hfind.trans (congrArg some heq))
        rw [hs', updateStats, List.getElem?_modify_ne _ _ hjk]
    refine ⟨server, hsame.trans hk, ?_⟩
    rw [hfalse]
    exact Adds.refl _

end DnsServer
end Kinds

section Run
variable {order : ByteOrder} {dnsPort : UInt16} {servers : List (UpstreamServerInfo Endpoint)}
  {k : Nat}

/-- What the traffic adds to the counters of the server with number k. -/
def Observed (servers : List (UpstreamServerInfo Endpoint)) (k : Nat) (traffic : Traffic)
    (before after : ServerStats) : Prop :=
  Adds before after (traffic.countP isForward) (traffic.countP (isReply servers k isInvalid))
    (traffic.countP (isReply servers k isUnasked)) (traffic.countP (isReply servers k isFailure))

theorem observed_snoc {traffic : Traffic} {a b c : ServerStats}
    {x : Happening × List (Sent Endpoint)} (h : Observed servers k traffic a b)
    (hx : Adds b c (isForward x).toNat (isReply servers k isInvalid x).toNat
      (isReply servers k isUnasked x).toNat (isReply servers k isFailure x).toNat) :
    Observed servers k (traffic ++ [x]) a c := by
  have hone : ∀ p : Happening × List (Sent Endpoint) → Bool, [x].countP p = (p x).toNat := by
    intro p
    cases hp : p x with
    | true => simp [hp]
    | false => simp [hp]
  simp only [Observed, List.countP_append, hone]
  exact h.trans hx

theorem findIdx_endpoint {s : Daemon} (hs : s.Inv servers) (endpoint : Endpoint) :
    (s.dns.servers.findIdx? fun server => server.endpoint = endpoint) =
      servers.findIdx? fun server => server.endpoint = endpoint := by
  have hall : ∀ l : List (UpstreamServerInfo Endpoint),
      (l.findIdx? fun server => server.endpoint = endpoint) =
        (l.map fun server => (server.endpoint, server.ipv4)).findIdx? fun x => x.1 = endpoint := by
    intro l
    rw [List.findIdx?_map]
    rfl
  have hend : (s.dns.servers.map fun server => (server.endpoint, server.ipv4)) =
      servers.map fun server => (server.endpoint, server.ipv4) := hs.endpoints
  rw [hall, hend, ← hall]

theorem replyFrom_response {d : Datagram} {packet : DnsPacket}
    (hroute : route d = some (.response packet)) :
    Happening.replyFrom servers k (.datagram d) =
      if (servers.findIdx? fun server => server.endpoint = d.endpoint) = some k then some packet
      else none := by
  simp only [Happening.replyFrom, hroute]

theorem replyFrom_none {e : Happening}
    (hno : ∀ d packet, e = .datagram d → route d ≠ some (.response packet)) :
    e.replyFrom servers k = none := by
  cases e with
  | frame c => rfl
  | call c => rfl
  | datagram d =>
    simp only [Happening.replyFrom]
    split
    · rename_i packet hroute
      exact absurd hroute (hno d packet rfl)
    · rfl

/-- What one happening adds. -/
theorem adds_step {s s' : Daemon} {e : Happening} {sent : List (Sent Endpoint)}
    (hs : s.Inv servers) (h : s.step order dnsPort e = some (s', sent))
    {server : UpstreamServerInfo Endpoint} (hk : s.dns.servers[k]? = some server) :
    ∃ server', s'.dns.servers[k]? = some server' ∧
      Adds server.stats server'.stats (isForward (e, sent)).toNat
        (isReply servers k isInvalid (e, sent)).toNat (isReply servers k isUnasked (e, sent)).toNat
        (isReply servers k isFailure (e, sent)).toNat := by
  by_cases hres : ∃ d packet, e = .datagram d ∧ route d = some (.response packet)
  · obtain ⟨d, packet, rfl, hroute⟩ := hres
    simp only [Daemon.step, Service.receive, hroute] at h
    obtain ⟨⟨service, out⟩, hrecv, heq⟩ := Option.map_eq_some_iff.mp h
    cases heq
    have hstep : s.dns.processUpstreamResponse packet d.endpoint d.now = (service.dns, out) := by
      cases hrecv
      rfl
    obtain ⟨server', hk', hadds⟩ := DnsServer.adds_response hstep hk
    refine ⟨server', hk', ?_⟩
    rw [findIdx_endpoint hs] at hadds
    have hforward : isForward (.datagram d, out) = false := by
      have hevent : s.dns.step (.response packet d.endpoint d.now) = some (service.dns, out) :=
        congrArg some hstep
      obtain hno | ⟨_, _, _, _, _, _, _, heq, _⟩ := DnsServer.forwarded_cases hevent
      · rw [isForward, List.any_eq_false]
        exact fun x hx => by simpa using hno x hx
      · cases heq
    simp only [isReply, replyFrom_response hroute, hforward]
    by_cases hown : (servers.findIdx? fun server => server.endpoint = d.endpoint) = some k
    · simpa [hown] using hadds
    · simpa [hown] using hadds
  · have hnone : e.replyFrom servers k = none :=
      replyFrom_none fun d packet he hroute => hres ⟨d, packet, he, hroute⟩
    simp only [isReply, hnone, Option.any_none, Bool.toNat_false]
    cases step_handled h with
    | silent hdns hsent =>
      rw [hdns, hsent]
      exact ⟨server, hk, Adds.refl _⟩
    | request action hroute hv hstep =>
      refine DnsServer.adds_request ?_ hstep hk
      intro packet endpoint now heq
      cases action <;> cases heq
    | response hroute hstep => exact absurd ⟨_, _, rfl, hroute⟩ hres

/-- The server with number k is there, and its counters are those of the traffic so far. -/
structure Booked (servers : List (UpstreamServerInfo Endpoint)) (k : Nat) (before : ServerStats)
    (traffic : Traffic) (s : Daemon) : Prop where
  inv : s.Inv servers
  counted : ∃ after, s.dns.servers[k]? = some after ∧ Observed servers k traffic before after.stats

theorem booked_step {before : ServerStats} (past : Traffic) (s : Daemon) (e : Happening)
    (s' : Daemon) (sent : List (Sent Endpoint)) (hs : Booked servers k before past s)
    (h : s.step order dnsPort e = some (s', sent)) :
    Booked servers k before (past ++ [(e, sent)]) s' := by
  obtain ⟨server, hserver, hsofar⟩ := hs.counted
  obtain ⟨server', hserver', hadds⟩ := adds_step hs.inv h hserver
  exact ⟨inv_daemon s e s' sent hs.inv h, server', hserver', observed_snoc hsofar hadds⟩

/-- After any interleaving, the counters of every server are what an observer of the traffic adds
to them, modulo 2^32: the happenings on which queries were forwarded, and the replies from the
server that are invalid, that are valid and passed on to nobody, and that are passed on with an
error code. -/
theorem counters_observed (order : ByteOrder) (dnsPort : UInt16)
    (servers : List (UpstreamServerInfo Endpoint)) (es : List Happening) (s : Daemon)
    (os : List (List (Sent Endpoint)))
    (h : run (Daemon.step order dnsPort) (Daemon.start servers) es = some (s, os)) (k : Nat)
    (before : UpstreamServerInfo Endpoint) (hk : servers[k]? = some before) :
    ∃ after, s.dns.servers[k]? = some after ∧
      Observed servers k (es.zip os) before.stats after.stats := by
  have hstart : Booked servers k before.stats [] (Daemon.start servers) :=
    ⟨Daemon.inv_start servers, before, hk, Adds.refl _⟩
  exact (Runs.run_history booked_step hstart h).counted

theorem counters_observed_answeredOnce : ∃ s os before after,
    run (Daemon.step .little 53) (Daemon.start upstreamAt) answeredOnce = some (s, os) ∧
      upstreamAt[0]? = some before ∧ s.dns.servers[0]? = some after ∧
      Observed upstreamAt 0 (answeredOnce.zip os) before.stats after.stats := by
  obtain ⟨s, os, hrun, _⟩ := answeredOnce_run
  obtain ⟨after, hafter, hcounted⟩ :=
    counters_observed .little 53 upstreamAt answeredOnce s os hrun 0 _ rfl
  exact ⟨s, os, _, after, hrun, rfl, hafter, hcounted⟩

end Run

end DnsWrapper.Dns
