import DnsWrapper.Delivery
import DnsWrapper.Direction
import DnsWrapper.RequestFlags
import DnsWrapper.RequestIds

/-! When the server is too busy. The nodes of further clients are behind a record or in the pool,
and no call loses one; so a client is refused for want of a node or of a record only when 150 of
them are taken. -/
namespace DnsWrapper.Bookkeeping
open scoped List
variable {E : Type}

namespace PeerRequests

/- The sources behind the first one, of all records. -/
def attached (rs : List (PeerRequestRecord E)) : List (PeerSource E) :=
  rs.flatMap PeerRequestRecord.additional

def nodes (pr : PeerRequests E) : List (PeerSource E) := pr.sources ++ attached pr.records

theorem attached_middle (a b : List (PeerRequestRecord E)) (r : PeerRequestRecord E) :
    attached (a ++ r :: b) ~ r.additional ++ attached (a ++ b) := by
  simp only [attached, List.flatMap_append, List.flatMap_cons]
  exact List.perm_append_comm_assoc _ _ _

theorem getElem?_middle {as a b : List (PeerRequestRecord E)} {r : PeerRequestRecord E}
    (h : as = a ++ r :: b) : as[a.length]? = some r := by
  rw [h, List.getElem?_append_right (Nat.le_refl _), Nat.sub_self, List.getElem?_cons_zero]

/- A record with the same nodes takes the place of another. -/
theorem setRecord_nodes {pr : PeerRequests E} {i : Nat} {r y : PeerRequestRecord E}
    (hi : pr.records[i]? = some r) (hy : y.additional = r.additional) :
    (pr.setRecord i y).nodes ~ pr.nodes := by
  obtain ⟨a, b, heq, _, hset⟩ := split_at hi
  have hafter := attached_middle a b y
  rw [hy] at hafter
  rw [nodes, nodes, setRecord, hset, heq]
  exact (hafter.trans (attached_middle a b r).symm).append_left _

theorem freePeerRequestRecord_nodes {pr : PeerRequests E} {i : Nat} {r : PeerRequestRecord E}
    (hi : pr.records[i]? = some r) : (pr.freePeerRequestRecord i r).nodes ~ pr.nodes := by
  obtain ⟨a, b, heq, _, hset⟩ := split_at hi
  have hafter : attached (a ++ r.freed :: b) ~ attached (a ++ b) := attached_middle a b r.freed
  simp only [nodes, freePeerRequestRecord, setRecord, hset]
  rw [heq]
  refine (hafter.append_left _).trans ?_
  refine (List.perm_append_comm.append_right _).trans ?_
  rw [List.append_assoc]
  exact (attached_middle a b r).symm.append_left _

theorem attached_collect (now : Int) (rs : List (PeerRequestRecord E)) :
    attached (rs.filter (expired now)) ++ attached (rs.map (collect now)) ~ attached rs := by
  induction rs with
  | nil => exact List.Perm.refl _
  | cons r rs ih =>
    by_cases hexp : expired now r = true
    · rw [List.filter_cons_of_pos hexp, List.map_cons, collect, if_pos hexp]
      simpa [attached, PeerRequestRecord.freed] using ih.append_left r.additional
    · rw [List.filter_cons_of_neg hexp, List.map_cons, collect, if_neg hexp]
      simp only [attached, List.flatMap_cons] at ih ⊢
      exact (List.perm_append_comm_assoc _ _ _).trans (ih.append_left _)

theorem sweep_nodes (pr : PeerRequests E) (now : Int) : (pr.sweep now).1.nodes ~ pr.nodes := by
  obtain ⟨hrecords, hsources⟩ := sweep_eq pr now
  rw [nodes, hrecords]
  refine (hsources.append_right _).trans ?_
  rw [List.append_assoc]
  refine (List.perm_append_comm_assoc _ _ _).trans ?_
  exact (attached_collect now pr.records).append_left _

theorem takeRecord_nodes {before : List (PeerRequestRecord E)} {pr : PeerRequests E} {now : Int}
    {st : Sweep E} (h : Swept now before pr.records st) (fresh : PeerRequestRecord E) :
    (pr.takeRecord now fresh st).2.nodes ~ pr.nodes ∧
      (pr.takeRecord now fresh st).2.sourceCount = pr.sourceCount := by
  unfold takeRecord
  cases ht : st.target with
  | some x => exact ⟨setRecord_nodes (h.target x.1 x.2 ht).1 rfl, rfl⟩
  | none =>
    cases ho : st.oldest.filter fun x => now - x.2.time ≥ timeout with
    | some x =>
      have hi := h.oldest x.1 x.2 (Option.filter_eq_some_iff.mp ho).1
      refine ⟨List.Perm.trans ?_ (freePeerRequestRecord_nodes hi), rfl⟩
      exact setRecord_nodes (freed_place hi) rfl
    | none => exact ⟨List.Perm.refl _, rfl⟩

/-- GetNewRecord loses no node, whatever it frees. -/
theorem getNewRecord_nodes (pr : PeerRequests E) (now : Int) (force : Bool)
    (fresh : PeerRequestRecord E) : (pr.getNewRecord now force fresh).2.nodes ~ pr.nodes ∧
      (pr.getNewRecord now force fresh).2.sourceCount = pr.sourceCount := by
  unfold getNewRecord
  simp only
  split
  · exact ⟨sweep_nodes pr now, rfl⟩
  · obtain ⟨hnodes, hcount⟩ := takeRecord_nodes (swept_sweep pr now) fresh
    exact ⟨hnodes.trans (sweep_nodes pr now), hcount⟩

/-- sourceCount is the number of the nodes. -/
structure Counted (pr : PeerRequests E) : Prop where
  count : pr.nodes.length = pr.sourceCount.toNat
  bound : pr.sourceCount.toNat ≤ maxFwdQueries

theorem Counted.perm {pr pr' : PeerRequests E} (h : pr.Counted) (hnodes : pr'.nodes ~ pr.nodes)
    (hcount : pr'.sourceCount = pr.sourceCount) : pr'.Counted :=
  ⟨by rw [hnodes.length_eq, h.count, hcount], hcount ▸ h.bound⟩

theorem length_nodes (pr : PeerRequests E) :
    pr.nodes.length = pr.sources.length + (attached pr.records).length := List.length_append

/- The node that GetNewPeerSource takes is linked behind a record. -/
theorem Counted.link {pr pr' : PeerRequests E} (h : pr.Counted) (hpr : pr.getNewPeerSource = some pr')
    {i : Nat} {r : PeerRequestRecord E} (hi : pr.records[i]? = some r) (s : PeerSource E) :
    (pr'.setRecord i { r with additional := s :: r.additional }).Counted := by
  obtain ⟨a, b, heq, _, hset⟩ := split_at hi
  have hlen : (attached (pr'.setRecord i { r with additional := s :: r.additional }).records).length =
      (attached pr.records).length + 1 := by
    rw [setRecord, getNewPeerSource_records hpr, hset, heq, (attached_middle a b _).length_eq,
      (attached_middle a b r).length_eq]
    rfl
  have hcount := h.count
  rw [length_nodes] at hcount
  unfold getNewPeerSource at hpr
  split at hpr
  · rename_i node rest hsources
    cases hpr
    rw [hsources, List.length_cons] at hcount
    refine ⟨?_, h.bound⟩
    rw [length_nodes, hlen]
    simp only [setRecord]
    omega
  · rename_i hsources
    split at hpr
    · rename_i hlt
      cases hpr
      have hnext : (pr.sourceCount + 1).toNat = pr.sourceCount.toNat + 1 := by
        simp only [maxFwdQueries] at hlt
        rw [UInt16.toNat_add, UInt16.toNat_one, Nat.mod_eq_of_lt]
        omega
      refine ⟨?_, ?_⟩
      · rw [length_nodes, hlen]
        simp only [setRecord, hnext]
        omega
      · simp only [setRecord, hnext]
        omega
    · cases hpr

end PeerRequests
end DnsWrapper.Bookkeeping

namespace DnsWrapper.Dns
open NetCommon Bookkeeping PeerRequests
open scoped List
variable {E : Type}

/-- Nothing is refused for want of room while there is room: a further client for a pending query
when 150 further clients wait, a new query when 150 are in flight and younger than the timeout.
Else only a repeat within two seconds is. -/
def Overloaded [DecidableEq E] (s : DnsServer E) (packet : DnsPacket) (endpoint : E) (ipv4 : Bool)
    (now : Int) : Prop :=
  match s.peerRequests.lookupByQuery packet.hash fwdFlags peerFlagMask with
  | some (_, r) => r.hasTimedOut = false ∧
    if addSource packet endpoint ipv4 ∈ r.sources then now - r.time < 2
    else (attached s.records).length = maxFwdQueries
  | none => s.records.length = maxFwdQueries ∧ ∀ r ∈ s.records, busy now r = true

/- A request comes by this time. -/
def Event.RequestBy (last : Int) : Event E → Prop
  | .resolve _ _ _ now _ _ => now ≤ last
  | .response _ _ _ => True
  | .redirect _ _ _ _ => True

namespace DnsServer

theorem counted_start (servers : List (UpstreamServerInfo E)) :
    (start servers).peerRequests.Counted := ⟨rfl, Nat.zero_le _⟩

theorem place_of_lookup {s : DnsServer E} {digest : List UInt8} {i : Nat} {r : PeerRequestRecord E}
    (h : s.peerRequests.lookupByQuery digest fwdFlags peerFlagMask = some (i, r)) :
    s.peerRequests.records[i]? = some r := (find_some h).2.1

theorem counted_forward {s : DnsServer E} (hs : s.peerRequests.Counted) (packet : DnsPacket)
    {pr : PeerRequests E} {i : Nat} {r y : PeerRequestRecord E} (hi : pr.records[i]? = some r)
    (hy : y.additional = r.additional) (hnodes : pr.nodes ~ s.peerRequests.nodes)
    (hcount : pr.sourceCount = s.peerRequests.sourceCount) :
    (s.forward packet pr i y).1.peerRequests.Counted :=
  hs.perm ((setRecord_nodes (y := { y with sentTo := some (s.servers.length - 1) }) hi hy).trans
    hnodes) hcount

variable [DecidableEq E]

theorem counted_resolve {s s' : DnsServer E} (hs : s.peerRequests.Counted) {packet : DnsPacket}
    {endpoint : E} {ipv4 : Bool} {now : Int} {draws : List (Fin 0xffff)}
    {fresh : PeerRequestRecord E} {sent : List (Sent E)}
    (h : s.resolve packet endpoint ipv4 now draws fresh = some (s', sent)) :
    s'.peerRequests.Counted := by
  have hget := getNewRecord_nodes s.peerRequests now false fresh
  cases resolve_exit h with
  | unconfigured => exact hs
  | repeated => exact hs
  | waiting => exact hs
  | exhausted => exact hs
  | joined _ hlookup _ _ hpr => exact hs.link hpr (place_of_lookup hlookup) _
  | rearmed _ hlookup _ h =>
    obtain rfl := congrArg Prod.fst h
    have hi := place_of_lookup hlookup
    exact counted_forward hs packet (freed_place hi) rfl (freePeerRequestRecord_nodes hi) rfl
  | full _ _ hfull =>
    rw [hfull] at hget
    exact hs.perm hget.1 hget.2
  | opened _ _ hnew _ h =>
    obtain rfl := congrArg Prod.fst h
    rw [hnew] at hget
    obtain ⟨a, b, heq, rfl, _⟩ := (newRecord_of_get hnew).place
    exact counted_forward hs _ (getElem?_middle heq) rfl hget.1 hget.2

theorem counted_response {s s' : DnsServer E} (hs : s.peerRequests.Counted) {packet : DnsPacket}
    {endpoint : E} {now : Int} {sent : List (Sent E)}
    (h : s.processUpstreamResponse packet endpoint now = (s', sent)) : s'.peerRequests.Counted := by
  unfold processUpstreamResponse at h
  split at h
  · cases h
    exact hs
  split at h
  · cases h
    exact hs
  split at h
  · cases h
    exact hs
  · rename_i i r hlookup
    cases h
    exact hs.perm (freePeerRequestRecord_nodes (find_some hlookup).2.1) rfl

theorem counted_step (s : DnsServer E) (e : Event E) (t : DnsServer E) (sent : List (Sent E))
    (hs : s.peerRequests.Counted) (h : s.step e = some (t, sent)) : t.peerRequests.Counted := by
  cases e with
  | resolve packet endpoint ipv4 now draws fresh => exact counted_resolve hs h
  | response packet endpoint now => exact counted_response hs (Option.some.inj h)
  | redirect packet endpoint ipv4 target =>
    cases h
    exact hs

theorem servers_run {servers : List (UpstreamServerInfo E)} {es : List (Event E)} {s : DnsServer E}
    {os : List (List (Sent E))} (h : run servers es = some (s, os)) (hservers : servers ≠ []) :
    s.servers ≠ [] := by
  intro hnil
  have hend := endpoints_run h
  rw [endpoints, hnil] at hend
  exact hservers (List.map_eq_nil_iff.mp hend.symm)

/- The conditions that resolve checks are those of an overload. -/
theorem mustRefuse_iff {s : DnsServer E} (hs : s.peerRequests.Counted)
    (hlen : s.records.length ≤ maxFwdQueries) (hservers : s.servers ≠ []) (packet : DnsPacket)
    (endpoint : E) (ipv4 : Bool) (now : Int) (draws : List (Fin 0xffff))
    (fresh : PeerRequestRecord E) :
    MustRefuse s (.resolve packet endpoint ipv4 now draws fresh) ↔
      Overloaded s packet endpoint ipv4 now := by
  have hcount := hs.count
  have hbound := hs.bound
  rw [length_nodes] at hcount
  simp only [MustRefuse, Overloaded, hservers, ne_eq, not_false_eq_true, true_and]
  cases s.peerRequests.lookupByQuery packet.hash fwdFlags peerFlagMask with
  | some x =>
    refine and_congr_right fun _ => ?_
    split_ifs
    · exact Iff.rfl
    · rw [← List.length_eq_zero_iff, records]
      omega
  | none =>
    have hle := List.countP_le_length (p := busy now) (l := s.records)
    rw [← List.countP_eq_length]
    omega

/-- A record in use is as old as one that was, or it was taken now. -/
theorem resolve_times {s s' : DnsServer E} (hs : Inv s) {packet : DnsPacket} {endpoint : E}
    {ipv4 : Bool} {now : Int} {draws : List (Fin 0xffff)} {fresh : PeerRequestRecord E}
    {sent : List (Sent E)} (h : s.resolve packet endpoint ipv4 now draws fresh = some (s', sent)) :
    ∀ x ∈ inFlight s'.records, x.time = now ∨ ∃ r ∈ inFlight s.records, x.time = r.time := by
  have hkept : ∀ x ∈ inFlight s.records, x.time = now ∨ ∃ r ∈ inFlight s.records, x.time = r.time :=
    fun x hx => .inr ⟨x, hx, rfl⟩
  have hreplaced : ∀ {a b : List (PeerRequestRecord E)} {r y : PeerRequestRecord E},
      s.Pending packet.hash a r b → y.inUse = true → y.time = r.time → s'.records = a ++ y :: b →
      ∀ x ∈ inFlight s'.records, x.time = now ∨ ∃ r ∈ inFlight s.records, x.time = r.time := by
    intro a b r y hp huse htime hr x hx
    rw [hr] at hx
    obtain rfl | hx := mem_inFlight_middle hx
    · exact .inr ⟨r, hp.mem, htime⟩
    · refine hkept x (List.Sublist.subset ?_ hx)
      rw [hp.split]
      exact filter_append_sublist a b r
  cases resolve_exit h with
  | unconfigured => exact hkept
  | repeated => exact hkept
  | waiting => exact hkept
  | exhausted => exact hkept
  | @joined i r pr _ hlookup _ _ hpr =>
    obtain ⟨a, b, hp, _, hset⟩ := pending_of_lookup hlookup
    refine hreplaced (y := { r with additional := addSource packet endpoint ipv4 :: r.additional })
      hp hp.inUse rfl ?_
    rw [records, setRecord, getNewPeerSource_records hpr]
    exact hset _
  | @rearmed i r _ _ _ hlookup _ h =>
    obtain ⟨a, b, hp, _, hset⟩ := pending_of_lookup hlookup
    cases h
    refine hreplaced (y := { r.freed with sentTo := some (s.servers.length - 1) }) hp rfl rfl ?_
    simp only [records, freePeerRequestRecord, setRecord, List.set_set]
    exact hset _
  | full _ _ hget => exact fun x hx => hkept x ((kept_of_full hget).1.subset hx)
  | opened _ _ hget _ h =>
    have htime := ((rearranged_of_get hs.tidy hget).2 _ _ rfl).time
    obtain ⟨a, b, heq, rfl, hsub⟩ := (newRecord_of_get hget).place
    cases h
    intro x hx
    simp only [records, setRecord, heq, List.set_append_right _ _ (Nat.le_refl _), Nat.sub_self,
      List.set_cons_zero] at hx
    obtain rfl | hx := mem_inFlight_middle hx
    · exact .inl htime
    · exact hkept x (hsub.subset hx)

theorem times_step {last : Int} (s : DnsServer E) (e : Event E) (t : DnsServer E)
    (sent : List (Sent E)) (he : e.RequestBy last)
    (hs : Inv s ∧ ∀ r ∈ inFlight s.records, r.time ≤ last) (h : s.step e = some (t, sent)) :
    Inv t ∧ ∀ r ∈ inFlight t.records, r.time ≤ last := by
  refine ⟨inv_step s e t sent hs.1 h, ?_⟩
  cases e with
  | resolve packet endpoint ipv4 now draws fresh =>
    intro x hx
    obtain hnow | ⟨r, hr, htime⟩ := resolve_times hs.1 h x hx
    · exact hnow.trans_le he
    · exact htime.trans_le (hs.2 r hr)
  | response packet endpoint now =>
    cases response_responded (Option.some.inj h) with
    | dropped hrecords =>
      rw [hrecords]
      exact hs.2
    | @relayed a r b _ hsplit _ _ _ hr =>
      intro x hx
      have hkept : inFlight t.records <+ inFlight s.records := by
        rw [hr, hsplit, inFlight, filter_append_free rfl]
        exact filter_append_sublist a b r
      exact hs.2 x (hkept.subset hx)
  | redirect packet endpoint ipv4 target =>
    cases h
    exact hs.2

/-- However many requests there were: when none has come for TIMEOUT seconds, a query that nobody
waits for goes to every server. -/
theorem quiet_recovers (servers : List (UpstreamServerInfo E)) (hservers : servers ≠ [])
    (es : List (Event E)) (s : DnsServer E) (os : List (List (Sent E)))
    (h : run servers es = some (s, os)) (last : Int) (hlast : ∀ e ∈ es, e.RequestBy last)
    (packet : DnsPacket) (endpoint : E) (ipv4 : Bool) (now : Int) (draws : List (Fin 0xffff))
    (fresh : PeerRequestRecord E) (s' : DnsServer E) (sent : List (Sent E))
    (hquiet : last + timeout ≤ now)
    (hnew : packet.hash ∉ (inFlight s.records).map PeerRequestRecord.hash)
    (hstep : s.resolve packet endpoint ipv4 now draws fresh = some (s', sent)) :
    ∃ id, sent = servers.map fun server =>
      ⟨.forwarded, packet.setId id, server.endpoint, server.ipv4⟩ := by
  have hnone : ∀ i r, s.peerRequests.lookupByQuery packet.hash fwdFlags peerFlagMask ≠ some (i, r) := by
    intro i r hlookup
    obtain ⟨a, b, hp, _⟩ := pending_of_lookup hlookup
    exact hnew (List.mem_map.mpr ⟨r, hp.mem, hp.hash⟩)
  cases resolve_exit hstep with
  | unconfigured hnil => exact absurd hnil (servers_run h hservers)
  | repeated _ hlookup => exact absurd hlookup (hnone _ _)
  | waiting _ hlookup => exact absurd hlookup (hnone _ _)
  | exhausted _ hlookup => exact absurd hlookup (hnone _ _)
  | joined _ hlookup => exact absurd hlookup (hnone _ _)
  | rearmed _ hlookup => exact absurd hlookup (hnone _ _)
  | full _ _ hget =>
    have hbusy := (getNewRecord_none_iff s.peerRequests now fresh).mp (by rw [hget])
    have hold : s.peerRequests.records.countP (busy now) = 0 := by
      rw [List.countP_eq_zero]
      intro r hr hyoung
      rw [busy, Bool.and_eq_true, decide_eq_true_eq] at hyoung
      have htimes := Runs.run_invariant_of times_step hlast
        ⟨inv_start servers, fun r hr => by cases hr⟩ h
      have hle := htimes.2 r (List.mem_filter.mpr ⟨hr, hyoung.1⟩)
      omega
    rw [hold] at hbusy
    cases hbusy
  | @opened i r pr id _ _ _ _ _ _ hfwd =>
    cases hfwd
    have hend := congrArg (List.map fun server : E × Bool =>
      (⟨.forwarded, packet.setId id, server.1, server.2⟩ : Sent E)) (endpoints_run h)
    rw [endpoints, endpoints, List.map_map, List.map_map] at hend
    exact ⟨id, hend⟩

theorem quiet_recovers_twoClients :
    ∃ s os, run sampleServers twoClients = some (s, os) ∧ (∀ e ∈ twoClients, e.RequestBy 6) ∧
      namedPacket.hash ∉ (inFlight s.records).map PeerRequestRecord.hash ∧
      ∃ s' sent, s.resolve namedPacket 3 true 16 [secondDraw] freshRecord = some (s', sent) ∧
        ∃ id, sent = sampleServers.map fun server =>
          ⟨.forwarded, namedPacket.setId id, server.endpoint, server.ipv4⟩ := by
  have hrun : (run sampleServers twoClients).map (fun x =>
      (decide (namedPacket.hash ∉ (inFlight x.1.records).map PeerRequestRecord.hash),
        (x.1.resolve namedPacket 3 true 16 [secondDraw] freshRecord).isSome)) =
          some (true, true) := by
    decide +kernel
  obtain ⟨⟨s, os⟩, hs, hboth⟩ := Option.map_eq_some_iff.mp hrun
  rw [Prod.mk.injEq, decide_eq_true_eq] at hboth
  obtain ⟨⟨s', sent⟩, hresolve⟩ := Option.isSome_iff_exists.mp hboth.2
  have hlast : ∀ e ∈ twoClients, e.RequestBy 6 := by
    simp [twoClients, Event.RequestBy]
  exact ⟨s, os, hs, hlast, hboth.1, s', sent, hresolve,
    quiet_recovers sampleServers (by simp [sampleServers]) twoClients s os hs 6 hlast namedPacket 3
      true 16 [secondDraw] freshRecord s' sent (by decide) hboth.1 hresolve⟩

end DnsServer
end DnsWrapper.Dns
