import DnsWrapper.Daemon
import DnsWrapper.Relaying

/-! What the daemon sends is paid for by what it receives: every datagram to a client answers a
request of its own, and a request brings at most one query to each upstream server. -/
namespace DnsWrapper.Dns
open ByteReader NetCommon Net Bookkeeping Shm
open Runs (run Admits)
open scoped List

section Server
variable {E : Type}

/- The datagrams to clients. -/
def toClients (sent : List (Sent E)) : List (Sent E) := sent.filter fun d => d.kind ≠ .forwarded

/- The key of the request an event is about. -/
def Event.key : Event E → Option (Key E)
  | .resolve packet endpoint ipv4 _ _ _ => some (addSource packet endpoint ipv4, packet.hash)
  | .response _ _ _ => none
  | .redirect packet endpoint ipv4 _ => some (addSource packet endpoint ipv4, packet.hash)

theorem key_redirect (packet : DnsPacket) (endpoint : E) (ipv4 : Bool) (target : IpAddress) :
    (DnsServer.redirect packet endpoint ipv4 target).map Sent.key =
      [(addSource packet endpoint ipv4, packet.hash)] := by
  have hid : (updateRedirectResponse packet target).getId = packet.getId := by
    rw [updateRedirectResponse_eq]
    split_ifs <;> rfl
  have hhash : (updateRedirectResponse packet target).hash = packet.hash := by
    rw [updateRedirectResponse_eq]
    split_ifs <;> rfl
  simp [DnsServer.redirect, Sent.key, hid, hhash, addSource]

theorem toClients_map {α : Type} {l : List α} {f : α → Sent E} (h : ∀ x, (f x).kind = .forwarded) :
    toClients (l.map f) = [] := by
  rw [toClients, List.filter_eq_nil_iff]
  intro d hd
  obtain ⟨x, _, rfl⟩ := List.mem_map.mp hd
  simpa using h x

namespace DnsServer
variable [DecidableEq E]

/-- An event answers, or goes on owing, at most what was owed and what it asks itself. -/
theorem owed_answered (s : DnsServer E) (e : Event E) (t : DnsServer E) (sent : List (Sent E))
    (hs : Inv s) (h : s.step e = some (t, sent)) :
    (toClients sent).map Sent.key ++ owed t.records <+~ e.key.toList ++ owed s.records := by
  cases e with
  | resolve packet endpoint ipv4 now draws fresh =>
    have hr := resolve_resolved h
    have howed := owed_resolved hs hr
    cases hr with
    | unconfigured h => exact howed
    | waiting h ht hc => exact howed
    | refused hin htidy hlen => exact (List.subperm_cons _).mpr (owed_sublist hin).subperm
    | joined h ht hc hr => exact howed
    | rearmed h ht hr hsent =>
      rw [hsent, toClients_map fun _ => rfl]
      exact howed
    | opened hnone hnew hpr hin hid hr hsent =>
      rw [hsent, toClients_map fun _ => rfl]
      exact howed
  | response packet endpoint now =>
    have hr := response_responded (Option.some.inj h)
    have howed := owed_responded hr
    have hall : toClients sent = relayedOf sent := by
      cases hr with
      | dropped h => rfl
      | relayed hsplit huse hid hhash hr =>
        apply List.filter_congr
        intro d hd
        obtain ⟨c, _, rfl⟩ := List.mem_map.mp hd
        rfl
    rw [hall]
    exact howed
  | redirect packet endpoint ipv4 target =>
    cases h
    have hall : toClients (redirect packet endpoint ipv4 target) =
        redirect packet endpoint ipv4 target := rfl
    rw [hall, key_redirect]
    exact List.Subperm.refl _

/- The queries that go upstream for a request, one to each server. -/
def queries (endpoints : List (E × Bool)) (packet : DnsPacket) : List (Sent E) :=
  endpoints.map fun x => ⟨.forwarded, packet, x.1, x.2⟩

theorem forwarded_cases {s t : DnsServer E} {e : Event E} {sent : List (Sent E)}
    (h : s.step e = some (t, sent)) : (∀ d ∈ sent, d.kind ≠ .forwarded) ∨
      ∃ packet endpoint ipv4 now draws fresh id,
        e = .resolve packet endpoint ipv4 now draws fresh ∧
        sent = queries s.endpoints (packet.setId id) := by
  cases e with
  | resolve packet endpoint ipv4 now draws fresh =>
    cases resolve_resolved h with
    | unconfigured h => exact .inl fun d hd => by cases hd
    | waiting h ht hc => exact .inl fun d hd => by cases hd
    | refused hin htidy hlen => exact .inl (by simp [refuse])
    | joined h ht hc hr => exact .inl fun d hd => by cases hd
    | rearmed h ht hr hsent =>
      refine .inr ⟨packet, endpoint, ipv4, now, draws, fresh, packet.getId, rfl, ?_⟩
      rw [hsent, queries, endpoints, List.map_map]
      rfl
    | @opened a r b id pr _ _ hnone hnew hpr hin hid hr hsent =>
      refine .inr ⟨packet, endpoint, ipv4, now, draws, fresh, id, rfl, ?_⟩
      rw [hsent, queries, endpoints, List.map_map]
      rfl
  | response packet endpoint now =>
    left
    cases response_responded (Option.some.inj h) with
    | dropped h => exact fun d hd => by cases hd
    | relayed hsplit huse hid hhash hr =>
      intro d hd
      obtain ⟨c, _, rfl⟩ := List.mem_map.mp hd
      exact fun hkind => by cases hkind
  | redirect packet endpoint ipv4 target =>
    cases h
    exact .inl (by simp [redirect])

end DnsServer
end Server

/- What one happening does to the forwarding server. -/
inductive Handled (s s' : Daemon) (sent : List (Sent Endpoint)) : Happening → Prop where
  | silent {e} (hdns : s'.dns = s.dns) (hsent : sent = []) : Handled s s' sent e
  | request {d packet} (action : Action) (hroute : route d = some (.request packet))
      (hv : packet.validate .incomingRequest = eNoError)
      (hstep : s.dns.step (d.event packet action) = some (s'.dns, sent)) :
      Handled s s' sent (.datagram d)
  | response {d packet} (hroute : route d = some (.response packet))
      (hstep : s.dns.step (.response packet d.endpoint d.now) = some (s'.dns, sent)) :
      Handled s s' sent (.datagram d)

/- Evaluate calls for one action, whatever the memory of the rules holds. -/
theorem evaluate_one {rd : RuleData} {input : Input} {k t : Nat} {ok : Bool}
    {actions : List Action} (h : rd.evaluateFrom input k t = some (ok, actions)) :
    ∃ action, actions = [action] := by
  induction k generalizing t with
  | zero =>
    cases h
    exact ⟨_, rfl⟩
  | succ k ih =>
    obtain ⟨⟨r, t'⟩, _, h⟩ := Option.bind_eq_some_iff.mp h
    obtain ⟨b, _, h⟩ := Option.bind_eq_some_iff.mp h
    cases b with
    | true =>
      obtain ⟨action, _, h⟩ := Option.bind_eq_some_iff.mp h
      cases h
      exact ⟨action, rfl⟩
    | false => exact ih h

theorem step_handled {order : ByteOrder} {dnsPort : UInt16} {s s' : Daemon} {e : Happening}
    {sent : List (Sent Endpoint)} (h : s.step order dnsPort e = some (s', sent)) :
    Handled s s' sent e := by
  cases e with
  | frame c =>
    obtain ⟨_, _, heq⟩ := Option.map_eq_some_iff.mp h
    cases heq
    exact .silent rfl rfl
  | call c =>
    obtain ⟨_, _, heq⟩ := Option.map_eq_some_iff.mp h
    cases heq
    exact .silent rfl rfl
  | datagram d =>
    obtain ⟨⟨s₁, sent₁⟩, hrecv, heq⟩ := Option.map_eq_some_iff.mp h
    cases heq
    obtain ⟨r, hroute, hrecv⟩ := Option.bind_eq_some_iff.mp hrecv
    cases r with
    | dropped =>
      cases hrecv
      exact .silent rfl rfl
    | malformed code =>
      cases hrecv
      exact .silent rfl rfl
    | request packet =>
      by_cases hv : packet.validate .incomingRequest = eNoError
      · simp only [Service.processRequest, hv, ne_eq, not_true_eq_false, if_false] at hrecv
        obtain ⟨⟨ok, actions⟩, heval, hrecv⟩ := Option.bind_eq_some_iff.mp hrecv
        obtain ⟨action, rfl⟩ := evaluate_one heval
        obtain ⟨⟨dns, outs⟩, hrun, hrecv⟩ := Option.bind_eq_some_iff.mp hrecv
        obtain ⟨u, out, outs', hone, hnil, rfl⟩ := Runs.run_cons hrun
        cases hnil
        cases hrecv
        exact .request action hroute hv (by simpa [Daemon.service] using hone)
      · simp only [Service.processRequest, if_pos hv] at hrecv
        cases hrecv
        exact .silent rfl rfl
    | response packet =>
      cases hrecv
      exact .response hroute rfl

/- The request that a happening is, if it is one that is handled. -/
def Happening.request : Happening → Option (DnsPacket × Datagram)
  | .datagram d =>
    match route d with
    | some (.request packet) =>
      if packet.validate .incomingRequest = eNoError then some (packet, d) else none
    | _ => none
  | _ => none

theorem request_eq {d : Datagram} {packet : DnsPacket} (hroute : route d = some (.request packet))
    (hv : packet.validate .incomingRequest = eNoError) :
    Happening.request (.datagram d) = some (packet, d) := by
  simp [Happening.request, hroute, hv]

def Happening.asks (e : Happening) : Option (Key Endpoint) :=
  e.request.map fun x => (addSource x.1 x.2.endpoint x.2.ipv4, x.1.hash)

theorem request_some {e : Happening} {packet : DnsPacket} {d : Datagram}
    (h : e.request = some (packet, d)) : e = .datagram d ∧ route d = some (.request packet) ∧
      packet.validate .incomingRequest = eNoError := by
  cases e with
  | datagram d' =>
    simp only [Happening.request] at h
    split at h
    · rename_i packet' hroute
      split at h
      · rename_i hv
        cases h
        exact ⟨rfl, hroute, hv⟩
      · cases h
    · cases h
  | frame c => cases h
  | call c => cases h

/- One upstream server, a query and its reply. -/
def upstreamAt : List (UpstreamServerInfo Endpoint) :=
  [⟨(arrived namedQuery).endpoint, true, ⟨0, 0, 0, 0, 0, 0⟩⟩]

def namedReply : Datagram := arrived ([0, 1, 129] ++ namedQuery.drop 3)

def answeredOnce : List Happening := [.datagram (arrived namedQuery), .datagram namedReply]

theorem answeredOnce_run : ∃ s os,
    run (Daemon.step .little 53) (Daemon.start upstreamAt) answeredOnce = some (s, os) ∧
      (os.map fun sent => sent.map fun a => (a.kind, a.packet.getId)) =
        [[(.forwarded, 1)], [(.relayed, 7)]] := by
  have hrun : (run (Daemon.step .little 53) (Daemon.start upstreamAt) answeredOnce).map
      (fun x => x.2.map fun sent => sent.map fun a => (a.kind, a.packet.getId)) =
      some [[(.forwarded, 1)], [(.relayed, 7)]] := by
    decide +kernel
  obtain ⟨⟨s, os⟩, hs, hsent⟩ := Option.map_eq_some_iff.mp hrun
  exact ⟨s, os, hs, hsent⟩

/- The query of the first step. -/
theorem answeredOnce_query : ∃ s₁ sent q t os',
    (Daemon.start upstreamAt).step .little 53 (.datagram (arrived namedQuery)) = some (s₁, sent) ∧
      q ∈ sent ∧ q.kind = .forwarded ∧ q.packet.getId = 1 ∧
      run (Daemon.step .little 53) s₁ [.datagram namedReply] = some (t, os') := by
  obtain ⟨t, os, hrun, hall⟩ := answeredOnce_run
  obtain ⟨s₁, sent, os', hstep, hrest, rfl⟩ := Runs.run_cons hrun
  have hsent : (sent.map fun a => (a.kind, a.packet.getId)) = [(.forwarded, 1)] :=
    (List.cons.inj hall).1
  have hmem : (SendKind.forwarded, 1) ∈ sent.map fun a => (a.kind, a.packet.getId) := by
    rw [hsent]
    exact List.mem_cons_self
  obtain ⟨q, hq, heq⟩ := List.mem_map.mp hmem
  exact ⟨s₁, sent, q, t, os', hstep, hq, congrArg Prod.fst heq, congrArg Prod.snd heq, hrest⟩

section Run
variable {order : ByteOrder} {dnsPort : UInt16} {servers : List (UpstreamServerInfo Endpoint)}
  {es : List Happening} {s : Daemon} {os : List (List (Sent Endpoint))}

/- What every happening keeps. -/
structure Daemon.Inv (servers : List (UpstreamServerInfo Endpoint)) (s : Daemon) : Prop where
  requests : s.dns.Inv
  endpoints : s.dns.endpoints = (DnsServer.start servers).endpoints

theorem Daemon.inv_start (servers : List (UpstreamServerInfo Endpoint)) :
    (Daemon.start servers).Inv servers := ⟨DnsServer.inv_start servers, rfl⟩

theorem inv_daemon (s : Daemon) (e : Happening) (s' : Daemon) (sent : List (Sent Endpoint))
    (hs : s.Inv servers) (h : s.step order dnsPort e = some (s', sent)) : s'.Inv servers := by
  cases step_handled h with
  | silent hdns hsent => exact ⟨by rw [hdns]; exact hs.requests, by rw [hdns]; exact hs.endpoints⟩
  | request action hroute hv hstep =>
    exact ⟨DnsServer.inv_step _ _ _ _ hs.requests hstep,
      (DnsServer.step_endpoints hstep).trans hs.endpoints⟩
  | response hroute hstep =>
    exact ⟨DnsServer.inv_step _ _ _ _ hs.requests hstep,
      (DnsServer.step_endpoints hstep).trans hs.endpoints⟩

theorem owed_daemon (s : Daemon) (e : Happening) (s' : Daemon) (sent : List (Sent Endpoint))
    (hs : s.Inv servers) (h : s.step order dnsPort e = some (s', sent)) :
    (toClients sent).map Sent.key ++ owed s'.dns.records <+~ e.asks.toList ++ owed s.dns.records := by
  cases step_handled h with
  | silent hdns hsent =>
    rw [hdns, hsent]
    exact (List.sublist_append_right _ _).subperm
  | @request d packet action hroute hv hstep =>
    have howed := DnsServer.owed_answered _ _ _ _ hs.requests hstep
    have hasks : Happening.asks (.datagram d) = (d.event packet action).key := by
      rw [Happening.asks, request_eq hroute hv]
      cases action with
      | resolve => rfl
      | redirect target => rfl
    rw [hasks]
    exact howed
  | response hroute hstep =>
    exact (DnsServer.owed_answered _ _ _ _ hs.requests hstep).trans (List.sublist_append_right _ _).subperm

/- The i-th thing that happened is a valid request, not later than the datagram, from its endpoint
   and with its ID and the digest of its questions. -/
def Answers (es : List Happening) (x : Nat × Sent Endpoint) (i : Nat) : Prop :=
  i ≤ x.1 ∧ ∃ d packet, es[i]? = some (.datagram d) ∧ route d = some (.request packet) ∧
    packet.validate .incomingRequest = eNoError ∧ d.endpoint = x.2.endpoint ∧ d.ipv4 = x.2.ipv4 ∧
    packet.getId = x.2.packet.getId ∧ packet.hash = x.2.packet.hash

/-- In any interleaving, the datagrams that the daemon sends to clients can be matched with
pairwise different valid requests that they answer. -/
theorem clients_matched (order : ByteOrder) (dnsPort : UInt16)
    (servers : List (UpstreamServerInfo Endpoint)) (es : List Happening) (s : Daemon)
    (os : List (List (Sent Endpoint)))
    (h : run (Daemon.step order dnsPort) (Daemon.start servers) es = some (s, os)) :
    ∃ asked : List Nat, asked.Nodup ∧
      List.Forall₂ (Answers es) (Runs.answersFrom toClients 0 os) asked := by
  obtain ⟨asked, hnodup, hall⟩ :=
    Runs.answers_matched_now inv_daemon owed_daemon (Daemon.inv_start servers) rfl h
  rw [Runs.answersFrom_map, List.forall₂_map_left_iff] at hall
  refine ⟨asked, hnodup, hall.imp ?_⟩
  rintro x i ⟨hle, e, he, hasks⟩
  obtain ⟨⟨packet, d⟩, hreq, hkey⟩ := Option.map_eq_some_iff.mp hasks
  obtain ⟨rfl, hroute, hv⟩ := request_some hreq
  simp only [addSource, Sent.key, Prod.mk.injEq, PeerSource.mk.injEq] at hkey
  obtain ⟨⟨hendpoint, hipv4, hid⟩, hhash⟩ := hkey
  exact ⟨hle, d, packet, he, hroute, hv, hendpoint, hipv4, hid, hhash⟩

theorem clients_matched_answeredOnce : ∃ s os,
    run (Daemon.step .little 53) (Daemon.start upstreamAt) answeredOnce = some (s, os) ∧
      (os.map fun sent => sent.map fun a => (a.kind, a.packet.getId)) =
        [[(.forwarded, 1)], [(.relayed, 7)]] ∧
      ∃ asked : List Nat, asked.Nodup ∧
        List.Forall₂ (Answers answeredOnce) (Runs.answersFrom toClients 0 os) asked := by
  obtain ⟨s, os, hrun, hsent⟩ := answeredOnce_run
  exact ⟨s, os, hrun, hsent, clients_matched .little 53 upstreamAt answeredOnce s os hrun⟩

theorem forwarded_step {s s' : Daemon} {e : Happening} {sent : List (Sent Endpoint)}
    (h : s.step order dnsPort e = some (s', sent)) : (∀ d ∈ sent, d.kind ≠ .forwarded) ∨
      ∃ packet d id, e.request = some (packet, d) ∧
        sent = DnsServer.queries s.dns.endpoints (packet.setId id) := by
  cases step_handled h with
  | silent hdns hsent =>
    rw [hsent]
    exact .inl fun d hd => by cases hd
  | @request d packet action hroute hv hstep =>
    refine (DnsServer.forwarded_cases hstep).imp_right ?_
    rintro ⟨packet', endpoint, ipv4, now, draws, fresh, id, hevent, hsent⟩
    cases action with
    | resolve =>
      cases hevent
      exact ⟨packet, d, id, request_eq hroute hv, hsent⟩
    | redirect target => cases hevent
  | response hroute hstep =>
    left
    obtain hno | ⟨_, _, _, _, _, _, _, hevent, _⟩ := DnsServer.forwarded_cases hstep
    · exact hno
    · cases hevent

/-- So the daemon sends at most one datagram more than there are servers for each valid request
that it receives, and nothing for anything else. -/
theorem sent_bounded (order : ByteOrder) (dnsPort : UInt16)
    (servers : List (UpstreamServerInfo Endpoint)) (es : List Happening) (s : Daemon)
    (os : List (List (Sent Endpoint)))
    (h : run (Daemon.step order dnsPort) (Daemon.start servers) es = some (s, os)) :
    os.flatten.length ≤ (servers.length + 1) * es.countP fun e => e.request.isSome := by
  obtain ⟨asked, hnodup, hall⟩ :=
    Runs.answers_matched_now inv_daemon owed_daemon (Daemon.inv_start servers) rfl h
  have hclients : Runs.total (fun sent => (toClients sent).length) os ≤
      es.countP fun e => e.request.isSome := by
    have hlen := hall.length_eq
    rw [Runs.length_answersFrom] at hlen
    simp only [List.length_map] at hlen
    rw [hlen]
    refine Runs.length_le_countP hnodup fun i hi => ?_
    obtain ⟨x, _, e, he, hasks⟩ := Runs.exists_of_forall₂ hall.flip hi
    exact ⟨e, he, by simpa [Happening.asks] using congrArg Option.isSome hasks⟩
  have hupstream : Runs.total (fun sent => (sent.filter fun d => d.kind = .forwarded).length) os ≤
      servers.length * es.countP fun e => e.request.isSome := by
    refine Runs.total_le_countP inv_daemon ?_ (Daemon.inv_start servers) h
    intro u e v sent hu hstep
    obtain hno | ⟨packet, d, id, hreq, hsent⟩ := forwarded_step hstep
    · rw [List.filter_eq_nil_iff.mpr fun d hd => by simpa using hno d hd]
      exact Nat.zero_le _
    · rw [hreq, hsent, hu.endpoints]
      refine (List.length_filter_le _ _).trans_eq ?_
      simp [DnsServer.queries, DnsServer.endpoints, DnsServer.start]
  have hsplit : os.flatten.length = Runs.total (fun sent => (toClients sent).length) os +
      Runs.total (fun sent => (sent.filter fun d => d.kind = .forwarded).length) os := by
    rw [Runs.length_flatten, ← Runs.total_add]
    congr 1
    funext sent
    rw [List.length_eq_length_filter_add fun d => d.kind = .forwarded, Nat.add_comm]
    simp [toClients]
  rw [hsplit, Nat.add_one_mul]
  omega

theorem sent_bounded_answeredOnce : ∃ s os,
    run (Daemon.step .little 53) (Daemon.start upstreamAt) answeredOnce = some (s, os) ∧
      os.flatten.length ≤
        (upstreamAt.length + 1) * answeredOnce.countP fun e => e.request.isSome := by
  obtain ⟨s, os, hrun, _⟩ := answeredOnce_run
  exact ⟨s, os, hrun, sent_bounded .little 53 upstreamAt answeredOnce s os hrun⟩

end Run

end DnsWrapper.Dns
