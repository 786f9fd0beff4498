import DnsWrapper.ClientAnswers
import DnsWrapper.RecordSweep

/-! The client whose request opened a record is answered: until TIMEOUT nothing takes the record
from it but the reply, and the reply goes to it under its own ID. -/
namespace DnsWrapper.Dns
open NetCommon Net Bookkeeping PeerRequests Shm
open Runs (run)
variable {E : Type}

theorem rearranged_of_get {pr pr' : PeerRequests E} {now : Int} {fresh : PeerRequestRecord E}
    {out : Option (Nat × PeerRequestRecord E)} (htidy : Tidy pr.records)
    (h : pr.getNewRecord now false fresh = (out, pr')) :
    (∃ new kept extra, Rearranged now pr pr' out new kept extra) ∧
      ∀ i g, out = some (i, g) → Returned now pr' i g := by
  simp only [getNewRecord] at h
  split at h
  · cases h
    exact ⟨⟨_, _, _, rearranged_sweep now htidy⟩, nofun⟩
  · obtain ⟨i, g, pr'', htake, hreturned, hre⟩ := takeRecord_returned now fresh htidy
    simp only [htake] at h
    cases h
    refine ⟨hre, ?_⟩
    rintro _ _ ⟨⟩
    exact hreturned

/- A young record stays in the table. -/
theorem young_kept {pr pr' : PeerRequests E} {now : Int} {out : Option (Nat × PeerRequestRecord E)}
    {new kept : List (PeerRequestRecord E)} {extra : Option (Nat × PeerRequestRecord E)}
    (h : Rearranged now pr pr' out new kept extra) {r : PeerRequestRecord E} (hr : r ∈ pr.records)
    (huse : r.inUse = true) (hage : now - r.time < timeout) : r ∈ pr'.records := by
  obtain ⟨k, hk⟩ := List.mem_iff_getElem?.mp hr
  rw [h.records]
  exact List.mem_append_right _ (List.mem_of_getElem? (h.collected.young hk huse hage))

/- A record in use for the client, under the ID and since the time. -/
structure Holds (key : Key E) (id : UInt16) (time : Int) (r : PeerRequestRecord E) : Prop where
  inUse : r.inUse = true
  source : r.source = key.1
  hash : r.hash = key.2
  newId : r.newId = id
  time : r.time = time

namespace DnsServer

def Awaits (s : DnsServer E) (key : Key E) (id : UInt16) (time : Int) : Prop :=
  ∃ r ∈ s.records, Holds key id time r

variable {s s' : DnsServer E} {key : Key E} {id : UInt16} {time : Int}

/- A record changes in ways that do not matter here. -/
theorem awaits_set (r' : PeerRequestRecord E) (h : s.Awaits key id time) {i : Nat}
    {r : PeerRequestRecord E} (hi : s.records[i]? = some r)
    (hr : Holds key id time r → Holds key id time r')
    (hs' : s'.records = s.records.set i r') : s'.Awaits key id time := by
  obtain ⟨x, hx, hholds⟩ := h
  obtain ⟨j, hj⟩ := List.mem_iff_getElem?.mp hx
  by_cases hij : i = j
  · subst hij
    rw [hi] at hj
    cases hj
    refine ⟨r', ?_, hr hholds⟩
    rw [hs']
    exact List.mem_of_getElem? (List.getElem?_set_self (List.getElem?_eq_some_iff.mp hi).1)
  · refine ⟨x, ?_, hholds⟩
    rw [hs']
    apply List.mem_of_getElem? (i := j)
    rw [List.getElem?_set_ne hij, hj]

variable [DecidableEq E] {packet : DnsPacket} {endpoint : E} {ipv4 : Bool} {now : Int}
  {draws : List (Fin 0xffff)} {fresh : PeerRequestRecord E} {sent : List (Sent E)}

/-- Until TIMEOUT resolve takes no record from its client. -/
theorem awaits_resolve (hs : Inv s) (h : s.Awaits key id time) (hage : now < time + timeout)
    (hstep : s.resolve packet endpoint ipv4 now draws fresh = some (s', sent)) :
    s'.Awaits key id time := by
  have hyoung : ∀ r, Holds key id time r → now - r.time < timeout := by
    intro r hr
    rw [hr.time]
    omega
  cases resolve_exit hstep with
  | unconfigured hs => exact h
  | repeated hs hlookup ht hc hnow => exact h
  | waiting hs hlookup ht hc hnow => exact h
  | exhausted hs hlookup ht hc hnone => exact h
  | @joined i r pr hs hlookup ht hc hpr =>
    have hi : s.records[i]? = some r := (find_some hlookup).2.1
    refine awaits_set { r with additional := addSource packet endpoint ipv4 :: r.additional } h hi
      (fun hr => ⟨hr.inUse, hr.source, hr.hash, hr.newId, hr.time⟩) ?_
    simp only [records, setRecord, getNewPeerSource_records hpr]
  | @rearmed i r _ _ hs hlookup ht hfwd =>
    have hi : s.records[i]? = some r := (find_some hlookup).2.1
    cases hfwd
    refine awaits_set { r.freed with sentTo := some (s.servers.length - 1) } h hi
      (fun hr => ⟨rfl, hr.source, hr.hash, hr.newId, hr.time⟩) ?_
    simp only [records, setRecord, freePeerRequestRecord, List.set_set]
  | full hs' hlookup hget =>
    obtain ⟨r, hr, hholds⟩ := h
    obtain ⟨⟨_, _, _, hre⟩, _⟩ := rearranged_of_get hs.tidy hget
    exact ⟨r, young_kept hre hr hholds.inUse (hyoung r hholds), hholds⟩
  | @opened i g pr id' _ _ hs' hlookup hget hid hfwd =>
    obtain ⟨r, hr, hholds⟩ := h
    obtain ⟨⟨_, _, _, hre⟩, hreturned⟩ := rearranged_of_get hs.tidy hget
    obtain ⟨hplace, hfree, _, _⟩ := hreturned i g rfl
    obtain ⟨j, hj⟩ := List.mem_iff_getElem?.mp (young_kept hre hr hholds.inUse (hyoung r hholds))
    have hij : i ≠ j := by
      rintro rfl
      rw [hplace] at hj
      cases hj
      rw [hholds.inUse] at hfree
      cases hfree
    cases hfwd
    refine ⟨r, ?_, hholds⟩
    apply List.mem_of_getElem? (i := j)
    simp only [records, setRecord]
    rw [List.getElem?_set_ne hij, hj]

/- The reply as the client gets it. -/
def servedTo (key : Key E) (packet : DnsPacket) : Sent E :=
  ⟨.relayed, (packet.setRecursionAvailable true).setId key.1.originalId, key.1.endpoint, key.1.ipv4⟩

/- A reply of one of the servers to the query with the ID and the digest. -/
structure IsReply (endpoints : List (E × Bool)) (id : UInt16) (digest : List UInt8) (endpoint : E)
    (packet : DnsPacket) : Prop where
  server : endpoint ∈ endpoints.map Prod.fst
  valid : packet.validate .incomingResponse = eNoError
  id : packet.getId = id
  digest : packet.hash = digest

/- Only valid packets of the servers are relayed. -/
theorem relayed_origin (hstep : s.processUpstreamResponse packet endpoint now = (s', sent))
    (hsent : sent ≠ []) : endpoint ∈ s.endpoints.map Prod.fst ∧
      packet.validate .incomingResponse = eNoError := by
  unfold processUpstreamResponse at hstep
  split at hstep
  · cases hstep
    exact absurd rfl hsent
  rename_i k hfind
  split at hstep
  · cases hstep
    exact absurd rfl hsent
  rename_i hv
  obtain ⟨hk, hserver, _⟩ := List.findIdx?_eq_some_iff_getElem.mp hfind
  refine ⟨?_, not_not.mp hv⟩
  rw [endpoints, List.map_map, ← of_decide_eq_true hserver]
  exact List.mem_map_of_mem (f := Prod.fst ∘ fun server => (server.endpoint, server.ipv4))
    (List.getElem_mem hk)

/-- Only a reply to its query takes the record away, and it is relayed to the client. -/
theorem awaits_response (h : s.Awaits key id time)
    (hstep : s.processUpstreamResponse packet endpoint now = (s', sent)) :
    s'.Awaits key id time ∨
      IsReply s.endpoints id key.2 endpoint packet ∧ servedTo key packet ∈ sent := by
  have hresponded := response_responded hstep
  generalize hout : sent = out at hresponded
  cases hresponded with
  | dropped hr =>
    obtain ⟨r, hr', hholds⟩ := h
    exact .inl ⟨r, hr ▸ hr', hholds⟩
  | @relayed a r b _ hsplit huse hid hhash hr =>
    obtain ⟨x, hx, hholds⟩ := h
    rw [hsplit, List.mem_append, List.mem_cons] at hx
    obtain hx | rfl | hx := hx
    · exact .inl ⟨x, by rw [hr]; exact List.mem_append_left _ hx, hholds⟩
    · right
      obtain ⟨hserver, hv⟩ := relayed_origin hstep (by rw [hout]; exact List.cons_ne_nil _ _)
      refine ⟨⟨hserver, hv, hid.symm.trans hholds.newId, hhash.symm.trans hholds.hash⟩, ?_⟩
      rw [servedTo, ← hholds.source]
      exact List.mem_map.mpr ⟨x.source, List.mem_cons_self, rfl⟩
    · left
      refine ⟨x, ?_, hholds⟩
      rw [hr]
      exact List.mem_append_right _ (List.mem_cons_of_mem _ hx)

/-- A reply to the query is relayed to the client. -/
theorem reply_served (hs : Inv s) (h : s.Awaits key id time)
    (hreply : IsReply s.endpoints id key.2 endpoint packet) :
    servedTo key packet ∈ (s.processUpstreamResponse packet endpoint now).2 := by
  obtain ⟨r, hr, hholds⟩ := h
  have hmem : r ∈ inFlight s.records := List.mem_filter.mpr ⟨hr, hholds.inUse⟩
  cases hfind : s.servers.findIdx? fun server => server.endpoint = endpoint with
  | none =>
    exfalso
    obtain ⟨server, hin, rfl⟩ : ∃ server ∈ s.servers, server.endpoint = endpoint := by
      simpa [endpoints] using hreply.server
    exact absurd (List.findIdx?_eq_none_iff.mp hfind server hin) (by simp)
  | some k =>
    cases hlookup : s.peerRequests.lookup packet.getId packet.hash with
    | none =>
      exfalso
      have hno := find_none hlookup r hr
      simp [hholds.inUse, hholds.newId, hholds.hash, hreply.id, hreply.digest] at hno
    | some x =>
      obtain ⟨i, r'⟩ := x
      obtain ⟨_, hget, haccept⟩ := find_some hlookup
      simp only [Bool.and_eq_true, beq_iff_eq] at haccept
      have hmem' : r' ∈ inFlight s.records :=
        List.mem_filter.mpr ⟨List.mem_of_getElem? hget, haccept.1.1⟩
      -- no two records in use wait for one digest
      obtain rfl : r' = r := List.inj_on_of_nodup_map hs.distinct hmem' hmem
        (by rw [haccept.2, hreply.digest, hholds.hash])
      have hsent : (s.processUpstreamResponse packet endpoint now).2 = relay packet r'.sources := by
        simp only [processUpstreamResponse, hfind, hreply.valid, hlookup, ne_eq, not_true_eq_false,
          if_false]
      rw [hsent, servedTo, ← hholds.source]
      exact List.mem_map.mpr ⟨r'.source, List.mem_cons_self, rfl⟩

/-- A request for which a query was sent, with no record for its questions before, is awaited
under the ID of the query. -/
theorem awaits_opened (hnew : ∀ r ∈ inFlight s.records, r.hash ≠ packet.hash)
    (hs : Inv s) (hstep : s.resolve packet endpoint ipv4 now draws fresh = some (s', sent))
    {q : Sent E} (hq : q ∈ sent) (hkind : q.kind = .forwarded) :
    s'.Awaits (addSource packet endpoint ipv4, packet.hash) q.packet.getId now := by
  have hnone : ∀ {i r}, s.peerRequests.lookupByQuery packet.hash fwdFlags peerFlagMask =
      some (i, r) → False := by
    intro i r hlookup
    obtain ⟨_, hget, haccept⟩ := find_some hlookup
    simp only [Bool.and_eq_true, beq_iff_eq] at haccept
    exact hnew r (List.mem_filter.mpr ⟨List.mem_of_getElem? hget, haccept.1.1⟩) haccept.2
  cases resolve_exit hstep with
  | unconfigured hs => cases hq
  | repeated hs hlookup ht hc hnow => exact (hnone hlookup).elim
  | waiting hs hlookup ht hc hnow => exact (hnone hlookup).elim
  | exhausted hs hlookup ht hc hnone' => exact (hnone hlookup).elim
  | joined hs hlookup ht hc hpr => exact (hnone hlookup).elim
  | rearmed hs hlookup ht hfwd => exact (hnone hlookup).elim
  | full hs hlookup hget =>
    rw [List.mem_singleton.mp hq] at hkind
    cases hkind
  | @opened i g pr id' _ _ hs' hlookup hget hid hfwd =>
    obtain ⟨hplace, _, _, htime⟩ := (rearranged_of_get hs.tidy hget).2 i g rfl
    cases hfwd
    obtain ⟨server, _, rfl⟩ := List.mem_map.mp hq
    refine ⟨{ g with
      source := addSource packet endpoint ipv4, newId := id', hash := packet.hash,
      flags := fwdFlags, sentTo := some (s.servers.length - 1) }, ?_, rfl, rfl, rfl, rfl, htime⟩
    apply List.mem_of_getElem? (i := i)
    simp only [records, setRecord]
    exact List.getElem?_set_self (List.getElem?_eq_some_iff.mp hplace).1

end DnsServer

section Run
variable {order : ByteOrder} {dnsPort : UInt16}

/- The i-th thing that happens is the packet as a reply of the servers. -/
def RepliesAt (servers : List (UpstreamServerInfo Endpoint)) (id : UInt16) (digest : List UInt8)
    (e : Happening) (packet : DnsPacket) : Prop :=
  ∃ d, e = .datagram d ∧ route d = some (.response packet) ∧
    DnsServer.IsReply (DnsServer.start servers).endpoints id digest d.endpoint packet

/- Requests come before the time. -/
def Before (time : Int) (e : Happening) : Prop :=
  ∀ packet d, e.request = some (packet, d) → d.now < time

structure Awaiting (servers : List (UpstreamServerInfo Endpoint)) (key : Key Endpoint)
    (id : UInt16) (time : Int) (s : Daemon) : Prop where
  inv : s.Inv servers
  awaits : s.dns.Awaits key id time

variable {servers : List (UpstreamServerInfo Endpoint)} {key : Key Endpoint} {id : UInt16}
  {time : Int}

def Served (servers : List (UpstreamServerInfo Endpoint)) (key : Key Endpoint) (id : UInt16)
    (e : Happening) (sent : List (Sent Endpoint)) : Prop :=
  ∃ packet, RepliesAt servers id key.2 e packet ∧ DnsServer.servedTo key packet ∈ sent

theorem awaiting_step (s : Daemon) (e : Happening) (s' : Daemon) (sent : List (Sent Endpoint))
    (h : Awaiting servers key id time s) (he : Before (time + timeout) e)
    (hstep : s.step order dnsPort e = some (s', sent)) :
    Awaiting servers key id time s' ∨ Served servers key id e sent := by
  have hinv := inv_daemon s e s' sent h.inv hstep
  cases step_handled hstep with
  | silent hdns hsent => exact .inl ⟨hinv, hdns ▸ h.awaits⟩
  | @request d packet action hroute hv hdns =>
    left
    refine ⟨hinv, ?_⟩
    cases action with
    | resolve =>
      exact DnsServer.awaits_resolve h.inv.requests h.awaits (he packet d (request_eq hroute hv)) hdns
    | redirect target =>
      have hsame : s.dns = s'.dns := congrArg Prod.fst (Option.some.inj hdns)
      rw [← hsame]
      exact h.awaits
  | @response d packet hroute hdns =>
    obtain hawaits | ⟨hreply, hserved⟩ := DnsServer.awaits_response h.awaits (Option.some.inj hdns)
    · exact .inl ⟨hinv, hawaits⟩
    · exact .inr ⟨packet, ⟨d, rfl, hroute, h.inv.endpoints ▸ hreply⟩, hserved⟩

theorem replied_step (s : Daemon) (e : Happening) (s' : Daemon) (sent : List (Sent Endpoint))
    (h : Awaiting servers key id time s) (he : ∃ packet, RepliesAt servers id key.2 e packet)
    (hstep : s.step order dnsPort e = some (s', sent)) : Served servers key id e sent := by
  obtain ⟨packet, d, rfl, hroute, hreply⟩ := he
  refine ⟨packet, ⟨d, rfl, hroute, hreply⟩, ?_⟩
  have hserved : DnsServer.servedTo key packet ∈
      (s.dns.processUpstreamResponse packet d.endpoint d.now).2 :=
    DnsServer.reply_served h.inv.requests h.awaits (h.inv.endpoints ▸ hreply)
  obtain ⟨⟨s₁, sent₁⟩, hrecv, heq⟩ := Option.map_eq_some_iff.mp hstep
  obtain ⟨r, hroute', hrecv⟩ := Option.bind_eq_some_iff.mp hrecv
  rw [hroute] at hroute'
  cases hroute'
  cases hrecv
  cases heq
  exact hserved

/-- Let a request find no record for its questions and send queries. If a reply of the servers to
them arrives, and all requests until then come less than TIMEOUT after it, such a reply is
relayed to the client under the client's ID, whatever else happens in between. -/
theorem opener_answered (order : ByteOrder) (dnsPort : UInt16)
    (servers : List (UpstreamServerInfo Endpoint)) (before after : List Happening)
    (d : Datagram) (packet : DnsPacket) (q : Sent Endpoint) (s s₁ t : Daemon)
    (os os' : List (List (Sent Endpoint))) (sent : List (Sent Endpoint))
    (hbefore : run (Daemon.step order dnsPort) (Daemon.start servers) before = some (s, os))
    (hroute : route d = some (.request packet))
    (hnew : ∀ r ∈ inFlight s.dns.records, r.hash ≠ packet.hash)
    (hstep : s.step order dnsPort (.datagram d) = some (s₁, sent)) (hq : q ∈ sent)
    (hkind : q.kind = .forwarded)
    (hyoung : ∀ e ∈ after, Before (d.now + timeout) e)
    (hreply : ∃ e ∈ after, ∃ p, RepliesAt servers q.packet.getId packet.hash e p)
    (hafter : run (Daemon.step order dnsPort) s₁ after = some (t, os')) :
    ∃ (j : Nat) (e : Happening) (out : List (Sent Endpoint)) (p : DnsPacket),
      after[j]? = some e ∧ os'[j]? = some out ∧
      RepliesAt servers q.packet.getId packet.hash e p ∧
      ⟨.relayed, (p.setRecursionAvailable true).setId packet.getId, d.endpoint, d.ipv4⟩ ∈ out := by
  have hinv : s.Inv servers := Runs.run_invariant inv_daemon (Daemon.inv_start servers) hbefore
  have hawaits : s₁.dns.Awaits (addSource packet d.endpoint d.ipv4, packet.hash) q.packet.getId
      d.now := by
    cases step_handled hstep with
    | silent hdns hsent =>
      rw [hsent] at hq
      cases hq
    | @request _ packet' action hroute' hv hdns =>
      rw [hroute] at hroute'
      cases hroute'
      cases action with
      | resolve => exact DnsServer.awaits_opened hnew hinv.requests hdns hq hkind
      | redirect target =>
        have hsent : DnsServer.redirect packet d.endpoint d.ipv4 target = sent :=
          congrArg Prod.snd (Option.some.inj hdns)
        rw [← hsent] at hq
        rw [List.mem_singleton.mp hq] at hkind
        cases hkind
    | response hroute' hdns =>
      rw [hroute] at hroute'
      cases hroute'
  have hstart : Awaiting servers (addSource packet d.endpoint d.ipv4, packet.hash)
      q.packet.getId d.now s₁ :=
    ⟨inv_daemon _ _ _ _ hinv hstep, hawaits⟩
  obtain ⟨j, e, out, he, hout, p, hreply', hserved⟩ :=
    Runs.run_serves awaiting_step replied_step hstart hyoung hafter hreply
  exact ⟨j, e, out, p, he, hout, hreply', hserved⟩

def replyPacket : DnsPacket :=
  { namedPacket with header := { namedPacket.header with id := 1, hb3 := 129 } }

theorem namedReply_repliesAt :
    RepliesAt upstreamAt 1 namedPacket.hash (.datagram namedReply) replyPacket :=
  ⟨namedReply, rfl, rfl, List.mem_singleton_self _, by decide, rfl, rfl⟩

/-- The reply comes at the time of the request. -/
theorem opener_answered_answeredOnce : ∃ s₁ t sent q os',
    (Daemon.start upstreamAt).step .little 53 (.datagram (arrived namedQuery)) = some (s₁, sent) ∧
      q ∈ sent ∧ q.kind = .forwarded ∧
      run (Daemon.step .little 53) s₁ [.datagram namedReply] = some (t, os') ∧
      ∃ (j : Nat) (e : Happening) (out : List (Sent Endpoint)) (p : DnsPacket),
        [Happening.datagram namedReply][j]? = some e ∧ os'[j]? = some out ∧
        RepliesAt upstreamAt q.packet.getId namedPacket.hash e p ∧
        ⟨.relayed, (p.setRecursionAvailable true).setId namedPacket.getId,
          (arrived namedQuery).endpoint, (arrived namedQuery).ipv4⟩ ∈ out := by
  obtain ⟨s₁, sent, q, t, os', hstep, hq, hkind, hid, hafter⟩ := answeredOnce_query
  have hyoung : ∀ e ∈ [Happening.datagram namedReply],
      Before ((arrived namedQuery).now + timeout) e := by
    rw [List.forall_mem_singleton]
    intro packet d h
    obtain ⟨heq, hreq, _⟩ := request_some h
    cases heq
    obtain ⟨d', heq', hresponse, _⟩ := namedReply_repliesAt
    cases heq'
    rw [hresponse] at hreq
    cases hreq
  have hreply : ∃ e ∈ [Happening.datagram namedReply], ∃ p,
      RepliesAt upstreamAt q.packet.getId namedPacket.hash e p := by
    rw [hid]
    exact ⟨_, List.mem_singleton_self _, _, namedReply_repliesAt⟩
  exact ⟨s₁, t, sent, q, os', hstep, hq, hkind, hafter,
    opener_answered .little 53 upstreamAt [] _ (arrived namedQuery) namedPacket q _ s₁ t [] os' sent
      rfl namedQuery_route (fun r hr => by cases hr) hstep hq hkind hyoung hreply hafter⟩

end Run
end DnsWrapper.Dns
