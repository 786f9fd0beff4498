import DnsWrapper.Relaying

/-! Which way the datagrams of a run point. What goes upstream is a query; what goes to a
client is a response under the ID of one of its requests, unless resolve refuses: it sets
the response code of the request and sends it back as the query it is. -/
namespace DnsWrapper.Dns
open NetCommon Bookkeeping PeerRequests
variable {E : Type}

/- receive hands requests to processRequest and the rest to processUpstreamResponse. -/
def Event.Received : Event E → Prop
  | .resolve packet _ _ _ _ _ => packet.isRequest = true
  | .response packet _ _ => packet.isRequest = false
  | .redirect packet _ _ _ => packet.isRequest = true

/- The event is a request with this ID from this endpoint. -/
def Event.RequestFrom (endpoint : E) (ipv4 : Bool) (id : UInt16) : Event E → Prop
  | .resolve packet client family _ _ _ =>
    client = endpoint ∧ family = ipv4 ∧ packet.getId = id
  | .response _ _ _ => False
  | .redirect packet client family _ => client = endpoint ∧ family = ipv4 ∧ packet.getId = id

/-- A datagram sent by event number j: upstream as a query, to a client as a response to a
request that this client has made. -/
def Sent.Proper (es : List (Event E)) (j : Nat) (d : Sent E) : Prop :=
  if d.kind = .forwarded then d.packet.isRequest = true
  else d.packet.isRequest = false ∧
    ∃ i ≤ j, ∃ e, es[i]? = some e ∧ e.RequestFrom d.endpoint d.ipv4 d.packet.getId

def AllProper (es : List (Event E)) (os : List (List (Sent E))) : Prop :=
  ∀ (j : Nat) (sent : List (Sent E)), os[j]? = some sent → ∀ d ∈ sent, d.Proper es j

/-- The three ways to be refused: a repeat within two seconds of a query that is still
pending, a further client when no source is left, a new query when 150 are in flight. -/
def MustRefuse [DecidableEq E] (s : DnsServer E) : Event E → Prop
  | .resolve packet endpoint ipv4 now _ _ =>
    s.servers ≠ [] ∧
    match s.peerRequests.lookupByQuery packet.hash fwdFlags peerFlagMask with
    | some (_, r) => r.hasTimedOut = false ∧
      if addSource packet endpoint ipv4 ∈ r.sources then now - r.time < 2
      else s.peerRequests.sources = [] ∧ maxFwdQueries ≤ s.peerRequests.sourceCount.toNat
    | none => maxFwdQueries ≤ s.records.countP (busy now)
  | .response _ _ _ => False
  | .redirect _ _ _ _ => False

theorem or_bit7 (x : UInt8) : (x ||| 128) &&& 128 = 128 := by
  have h : ∀ b : BitVec 8, (b ||| 128#8) &&& 128#8 = 128#8 := by decide +kernel
  exact UInt8.eq_of_toBitVec_eq (h x.toBitVec)

theorem or_bit2 (x : UInt8) : (x ||| 4) &&& 128 = x &&& 128 := by
  have h : ∀ b : BitVec 8, (b ||| 4#8) &&& 128#8 = b &&& 128#8 := by decide +kernel
  exact UInt8.eq_of_toBitVec_eq (h x.toBitVec)

theorem isRequest_setAsQueryResponse (p : DnsPacket) : p.setAsQueryResponse.isRequest = false := by
  have hbit := or_bit7 p.header.hb3
  change (!((p.header.hb3 ||| 128) &&& 128 != 0)) = false
  rw [hbit]
  rfl

theorem isRequest_setAsAuthoritativeAnswer (p : DnsPacket) :
    (p.setAsAuthoritativeAnswer true).isRequest = p.isRequest := by
  have hbit := or_bit2 p.header.hb3
  change (!((p.header.hb3 ||| 4) &&& 128 != 0)) = (!(p.header.hb3 &&& 128 != 0))
  rw [hbit]

theorem setAnswers_direction (p : DnsPacket) (f : DnsQuestion → DnsRecord) :
    (p.setAnswers f).isRequest = p.isRequest ∧ (p.setAnswers f).getId = p.getId := by
  unfold DnsPacket.setAnswers
  split
  · exact ⟨rfl, rfl⟩
  · exact ⟨rfl, rfl⟩

theorem updateRedirectResponse_direction (p : DnsPacket) (target : IpAddress) :
    (updateRedirectResponse p target).isRequest = false ∧
      (updateRedirectResponse p target).getId = p.getId := by
  obtain ⟨hqr, hid⟩ := setAnswers_direction
    (((p.setAsQueryResponse).setAsAuthoritativeAnswer true).setRecursionAvailable true)
    (redirectAnswer target)
  refine ⟨hqr.trans ?_, hid⟩
  exact (isRequest_setAsAuthoritativeAnswer p.setAsQueryResponse).trans
    (isRequest_setAsQueryResponse p)

namespace DnsServer

/- What a resolve that does not refuse sends. -/
theorem sent_of_resolved {s s' : DnsServer E} {packet : DnsPacket} {endpoint : E} {ipv4 : Bool}
    {sent : List (Sent E)} (h : Resolved s packet endpoint ipv4 s' sent) (hnot : ¬ Refuses sent)
    {d : Sent E} (hd : d ∈ sent) :
    d.kind = .forwarded ∧ d.packet.isRequest = packet.isRequest := by
  cases h with
  | unconfigured h => cases hd
  | waiting h ht hc => cases hd
  | refused hin htidy hlen => exact absurd ⟨_, List.mem_cons_self, rfl⟩ hnot
  | joined h ht hc hr => cases hd
  | rearmed h ht hr hsent =>
    rw [hsent] at hd
    obtain ⟨server, _, rfl⟩ := List.mem_map.mp hd
    exact ⟨rfl, rfl⟩
  | opened hnone hnew hpr hin hid hr hsent =>
    rw [hsent] at hd
    obtain ⟨server, _, rfl⟩ := List.mem_map.mp hd
    exact ⟨rfl, rfl⟩

theorem not_refuses_forward {servers : List (UpstreamServerInfo E)} {packet : DnsPacket} :
    ¬ Refuses (servers.map fun server =>
      (⟨.forwarded, packet, server.endpoint, server.ipv4⟩ : Sent E)) := by
  rintro ⟨d, hd, hkind⟩
  obtain ⟨server, _, rfl⟩ := List.mem_map.mp hd
  cases hkind

theorem refuses_refuse (packet : DnsPacket) (endpoint : E) (ipv4 : Bool) :
    Refuses [refuse packet endpoint ipv4] := ⟨_, List.mem_cons_self, rfl⟩

variable [DecidableEq E]

theorem refuses_resolve {s s' : DnsServer E} {packet : DnsPacket} {endpoint : E} {ipv4 : Bool}
    {now : Int} {draws : List (Fin 0xffff)} {fresh : PeerRequestRecord E} {sent : List (Sent E)}
    (h : s.resolve packet endpoint ipv4 now draws fresh = some (s', sent)) :
    Refuses sent ↔ MustRefuse s (.resolve packet endpoint ipv4 now draws fresh) := by
  have hnil : ¬ Refuses ([] : List (Sent E)) := by
    rintro ⟨d, hd, _⟩
    cases hd
  have hrefuse := refuses_refuse packet endpoint ipv4
  rw [MustRefuse]
  cases resolve_exit h with
  | unconfigured hs => exact iff_of_false hnil fun hmust => hmust.1 hs
  | repeated hs hlookup ht hc hnow =>
    rw [hlookup]
    exact iff_of_true hrefuse ⟨hs, ht, by rwa [if_pos hc]⟩
  | waiting hs hlookup ht hc hnow =>
    rw [hlookup]
    refine iff_of_false hnil fun hmust => ?_
    have hagain := hmust.2.2
    rw [if_pos hc] at hagain
    exact hnow hagain
  | exhausted hs hlookup ht hc hnone =>
    rw [hlookup]
    exact iff_of_true hrefuse ⟨hs, ht, by rwa [if_neg hc, ← getNewPeerSource_none_iff]⟩
  | joined hs hlookup ht hc hpr =>
    rw [hlookup]
    refine iff_of_false hnil fun hmust => ?_
    have hagain := hmust.2.2
    rw [if_neg hc, ← getNewPeerSource_none_iff, hpr] at hagain
    cases hagain
  | rearmed hs hlookup ht h =>
    rw [hlookup]
    cases h
    refine iff_of_false not_refuses_forward fun hmust => ?_
    cases ht.symm.trans hmust.2.1
  | full hs hlookup hget =>
    have hmany := (getNewRecord_none_iff s.peerRequests now fresh).mp (by rw [hget])
    rw [hlookup]
    exact iff_of_true hrefuse ⟨hs, hmany⟩
  | opened hs hlookup hget hid h =>
    rw [hlookup]
    cases h
    refine iff_of_false not_refuses_forward fun hmust => ?_
    have hnone := (getNewRecord_none_iff s.peerRequests now fresh).mpr hmust.2
    rw [hget] at hnone
    cases hnone

theorem refuses_step (s : DnsServer E) (e : Event E) (t : DnsServer E) (sent : List (Sent E))
    (h : s.step e = some (t, sent)) : ¬ MustRefuse s e ↔ ¬ Refuses sent := by
  rw [not_iff_not, Iff.comm]
  cases e with
  | resolve packet endpoint ipv4 now draws fresh => exact refuses_resolve h
  | response packet endpoint now =>
    refine iff_of_false ?_ id
    rintro ⟨d, hd, hkind⟩
    cases response_responded (Option.some.inj h) with
    | dropped h => cases hd
    | relayed hsplit huse hid hhash hr =>
      obtain ⟨source, _, rfl⟩ := List.mem_map.mp hd
      cases hkind
  | redirect packet endpoint ipv4 target =>
    cases h
    refine iff_of_false ?_ id
    rintro ⟨d, hd, hkind⟩
    rw [List.mem_singleton.mp hd] at hkind
    cases hkind

/- A refused request is sent back with the direction it came with. -/
theorem refused_isRequest {s t : DnsServer E} {e : Event E} {sent : List (Sent E)}
    (h : s.step e = some (t, sent)) (he : e.Received) {d : Sent E} (hd : d ∈ sent)
    (hkind : d.kind = .refused) : d.packet.isRequest = true := by
  cases e with
  | resolve packet endpoint ipv4 now draws fresh =>
    by_cases hnot : Refuses sent
    · cases resolve_resolved h with
      | refused hin htidy hlen =>
        rw [List.mem_singleton.mp hd]
        exact he
      | unconfigured h => cases hd
      | waiting h ht hc => cases hd
      | joined h ht hc hr => cases hd
      | rearmed h ht hr hsent => exact absurd (hsent ▸ hnot) not_refuses_forward
      | opened hnone hnew hpr hin hid hr hsent => exact absurd (hsent ▸ hnot) not_refuses_forward
    · exact absurd ⟨d, hd, hkind⟩ hnot
  | response packet endpoint now =>
    have hmust := mt (refuses_step s _ t sent h).mp (fun hnot => hnot ⟨d, hd, hkind⟩)
    exact absurd id hmust
  | redirect packet endpoint ipv4 target =>
    have hmust := mt (refuses_step s _ t sent h).mp (fun hnot => hnot ⟨d, hd, hkind⟩)
    exact absurd id hmust

/- The datagrams of one event that refuses nobody. Only a relayed one depends on earlier
   events. -/
theorem proper_step {s t : DnsServer E} {e : Event E} {sent : List (Sent E)}
    (h : s.step e = some (t, sent)) (he : e.Received) (hnot : ¬ Refuses sent)
    {es : List (Event E)} {j : Nat} (hj : es[j]? = some e)
    (hrelayed : ∀ d ∈ sent, d.kind = .relayed → ∃ i < j, Runs.AskedAt Event.asks es d.key i) :
    ∀ d ∈ sent, d.Proper es j := by
  intro d hd
  cases e with
  | resolve packet endpoint ipv4 now draws fresh =>
    obtain ⟨hkind, hqr⟩ := sent_of_resolved (resolve_resolved h) hnot hd
    rw [Sent.Proper, if_pos hkind, hqr]
    exact he
  | response packet endpoint now =>
    cases response_responded (Option.some.inj h) with
    | dropped h => cases hd
    | relayed hsplit huse hid hhash hr =>
      have hasked := hrelayed d hd
      obtain ⟨source, _, rfl⟩ := List.mem_map.mp hd
      obtain ⟨i, hi, hi'⟩ := hasked rfl
      obtain ⟨packet', now', draws', fresh', hes, hid', _⟩ := asked_request hi'
      rw [Sent.Proper, if_neg nofun]
      exact ⟨he, i, Nat.le_of_lt hi, _, hes, rfl, rfl, hid'⟩
  | redirect packet endpoint ipv4 target =>
    cases h
    rw [List.mem_singleton.mp hd]
    obtain ⟨hqr, hid⟩ := updateRedirectResponse_direction packet target
    rw [Sent.Proper, if_neg nofun]
    exact ⟨hqr, j, Nat.le_refl j, _, hj, rfl, rfl, hid.symm⟩

/-- All datagrams of a run are proper exactly when no event of it had to be refused. -/
theorem proper_iff_none_refused (servers : List (UpstreamServerInfo E)) (es : List (Event E))
    (s : DnsServer E) (os : List (List (Sent E))) (h : run servers es = some (s, os))
    (hreceived : ∀ e ∈ es, e.Received) :
    AllProper es os ↔ Runs.Admits step (fun s e => ¬ MustRefuse s e) (start servers) es := by
  rw [Runs.admits_iff_outputs refuses_step h]
  constructor
  · rintro hproper sent hsent ⟨d, hd, hkind⟩
    obtain ⟨j, hj⟩ := List.mem_iff_getElem?.mp hsent
    obtain ⟨e, u, v, hes, hstep⟩ := Runs.run_output h hj
    have hqr := refused_isRequest hstep (hreceived e (List.mem_of_getElem? hes)) hd hkind
    have hd' := hproper j sent hj d hd
    rw [Sent.Proper, if_neg (by rw [hkind]; exact nofun), hqr] at hd'
    cases hd'.1
  · intro hnot j sent hj
    obtain ⟨e, u, v, hes, hstep⟩ := Runs.run_output h hj
    refine proper_step hstep (hreceived e (List.mem_of_getElem? hes))
      (hnot sent (List.mem_of_getElem? hj)) hes ?_
    intro d hd hkind
    obtain ⟨asked, _, hall⟩ := relayed_keys_matched h
    have hmem : (0 + j, d) ∈ relayedIn os := Runs.mem_answersFrom hj
      (List.mem_filter.mpr ⟨hd, decide_eq_true hkind⟩) 0
    obtain ⟨i, hi, hi'⟩ := Runs.exists_of_forall₂ hall hmem
    rw [Nat.zero_add] at hi
    exact ⟨i, hi, hi'⟩

/- A client asks at second 5 of the clock and repeats its query at second 6. -/
def repeatedQuery : List (Event Nat) :=
  [.resolve (sampleQuery 7) 1 true 5 [firstDraw] freshRecord,
    .resolve (sampleQuery 7) 1 true 6 [firstDraw] freshRecord]

theorem repeatedQuery_received : ∀ e ∈ repeatedQuery, e.Received := by
  intro e he
  cases he with
  | head => rfl
  | tail _ he =>
    rw [List.mem_singleton.mp he]
    rfl

/-- The refusal of the repeated query is sent to the client with QR = 0. -/
theorem repeated_query_not_proper :
    ∃ s os sent d, run sampleServers repeatedQuery = some (s, os) ∧
      (∀ e ∈ repeatedQuery, e.Received) ∧ os[1]? = some sent ∧ d ∈ sent ∧
      d.kind = .refused ∧ ¬ d.Proper repeatedQuery 1 ∧ ¬ AllProper repeatedQuery os := by
  have hrun : (run sampleServers repeatedQuery).map (fun x => x.2[1]?.map fun sent =>
      sent.map fun d => (d.kind, d.packet.isRequest)) = some (some [(.refused, true)]) := by
    decide +kernel
  obtain ⟨⟨s, os⟩, hs, hrun⟩ := Option.map_eq_some_iff.mp hrun
  obtain ⟨sent, hsent, hlist⟩ := Option.map_eq_some_iff.mp hrun
  obtain ⟨d, rest, rfl, hd, _⟩ := List.map_eq_cons_iff.mp hlist
  simp only [Prod.mk.injEq] at hd
  have hnot : ¬ d.Proper repeatedQuery 1 := by
    rw [Sent.Proper, if_neg (by rw [hd.1]; exact nofun), hd.2]
    exact fun h => nomatch h.1
  exact ⟨s, os, _, d, hs, repeatedQuery_received, hsent, List.mem_cons_self, hd.1, hnot,
    fun hall => hnot (hall 1 _ hsent d List.mem_cons_self)⟩

theorem proper_iff_none_refused_repeatedQuery :
    ∃ s os, run sampleServers repeatedQuery = some (s, os) ∧
      (∀ e ∈ repeatedQuery, e.Received) ∧
      (AllProper repeatedQuery os ↔
        Runs.Admits step (fun s e => ¬ MustRefuse s e) (start sampleServers) repeatedQuery) := by
  have hrun : (run sampleServers repeatedQuery).isSome = true := by decide +kernel
  obtain ⟨⟨s, os⟩, hs⟩ := Option.isSome_iff_exists.mp hrun
  exact ⟨s, os, hs, repeatedQuery_received,
    proper_iff_none_refused sampleServers repeatedQuery s os hs repeatedQuery_received⟩

end DnsServer
end DnsWrapper.Dns
