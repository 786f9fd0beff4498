import DnsWrapper.ServerSteps

/-! When a client that was not refused is tracked. A record that LookupByQuery finds counts
as timed out as soon as its absolute time passes ten seconds; resolve then sends the query
again for the old client, under the ID of the new one. -/
namespace DnsWrapper.Dns
open NetCommon Bookkeeping PeerRequests
open scoped List
variable {E : Type}

/-- After the step some record in use has the request's digest and the client among its
sources, with its endpoint, its family and its own ID, and what went upstream carries the ID of
this record. -/
def Tracked (s : DnsServer E) (sent : List (Sent E)) (packet : DnsPacket) (endpoint : E)
    (ipv4 : Bool) : Prop :=
  ∃ r ∈ s.records, r.inUse = true ∧ r.hash = packet.hash ∧
    { endpoint, ipv4, originalId := packet.header.id } ∈ r.sources ∧
    ∀ d ∈ sent, d.kind = .forwarded → d.packet.getId = r.newId

/-- If a record waits for the same question and counts as timed out, it is one whose first
source is this very request and whose ID is the request's own. -/
def OwnRecordIfTimedOut (s : DnsServer E) (packet : DnsPacket) (endpoint : E) (ipv4 : Bool) :
    Prop :=
  ∀ i r, s.peerRequests.lookupByQuery packet.hash fwdFlags peerFlagMask = some (i, r) →
    r.hasTimedOut = true →
      r.source = { endpoint, ipv4, originalId := packet.header.id } ∧ r.newId = packet.header.id

namespace DnsServer

theorem ownRecord_of_young {s : DnsServer E} {packet : DnsPacket} {endpoint : E} {ipv4 : Bool}
    {a b : List (PeerRequestRecord E)} {r : PeerRequestRecord E}
    (h : s.Pending packet.hash a r b) (ht : r.hasTimedOut = false) :
    OwnRecordIfTimedOut s packet endpoint ipv4 := by
  intro i x hx htx
  rw [h.found] at hx
  cases hx
  rw [ht] at htx
  cases htx

/- The digest of a record in use singles it out. -/
theorem eq_of_hash {s : DnsServer E} (hs : Inv s) {r x : PeerRequestRecord E}
    (hr : r ∈ s.records) (huse : r.inUse = true) (hx : x ∈ s.records) (hxuse : x.inUse = true)
    (hhash : x.hash = r.hash) : x = r :=
  List.inj_on_of_nodup_map hs.distinct (List.mem_filter.mpr ⟨hx, hxuse⟩)
    (List.mem_filter.mpr ⟨hr, huse⟩) hhash

theorem mem_middle {a b : List (PeerRequestRecord E)} (r : PeerRequestRecord E) :
    r ∈ a ++ r :: b := List.mem_append_right a List.mem_cons_self

/-- The case analysis behind the criterion, one case for each exit of resolve. -/
theorem tracked_of_resolved {s s' : DnsServer E} {packet : DnsPacket} {endpoint : E} {ipv4 : Bool}
    {sent : List (Sent E)} (hs : Inv s) (hservers : s.servers ≠ [])
    (h : Resolved s packet endpoint ipv4 s' sent) (hnot : ¬ Refuses sent) :
    Tracked s' sent packet endpoint ipv4 ↔ OwnRecordIfTimedOut s packet endpoint ipv4 := by
  have hs' := inv_resolved hs h
  cases h with
  | unconfigured h => exact absurd h hservers
  | refused hin htidy hlen => exact absurd ⟨_, List.mem_cons_self, rfl⟩ hnot
  | waiting h ht hc =>
    refine iff_of_true ?_ (ownRecord_of_young h ht)
    exact ⟨_, (List.mem_filter.mp h.mem).1, h.inUse, h.hash, hc, nofun⟩
  | @joined a r b _ h ht hc hr =>
    have hmem := hr ▸ mem_middle (a := a) (b := b)
      { r with additional := addSource packet endpoint ipv4 :: r.additional }
    refine iff_of_true ?_ (ownRecord_of_young h ht)
    refine ⟨_, hmem, h.inUse, h.hash, ?_, nofun⟩
    exact List.mem_cons_of_mem _ List.mem_cons_self
  | opened hnone hnew hpr hin hid hr hsent =>
    refine iff_of_true ⟨_, hr ▸ mem_middle _, rfl, rfl, List.mem_cons_self, ?_⟩ ?_
    · intro d hd _
      rw [hsent] at hd
      obtain ⟨server, _, rfl⟩ := List.mem_map.mp hd
      rfl
    · intro i r hlookup
      rw [hnone] at hlookup
      cases hlookup
  | @rearmed a r b _ _ h ht hr hsent =>
    have hmem := hr ▸ mem_middle (a := a) (b := b)
      { r.freed with sentTo := some (s.servers.length - 1) }
    obtain ⟨server, rest, hcons⟩ := List.exists_cons_of_ne_nil hservers
    constructor
    · rintro ⟨x, hx, hxuse, hxhash, hclient, hids⟩
      have hxr := eq_of_hash hs' hmem rfl hx hxuse (hxhash.trans h.hash.symm)
      rw [hxr] at hclient hids
      have hsource : addSource packet endpoint ipv4 = r.source := List.mem_singleton.mp hclient
      have hid := hids ⟨.forwarded, packet, server.endpoint, server.ipv4⟩ (by
        rw [hsent, hcons]
        exact List.mem_cons_self) rfl
      intro i y hy _
      rw [h.found] at hy
      cases hy
      exact ⟨hsource.symm, hid.symm⟩
    · intro hown
      obtain ⟨hsource, hid⟩ := hown _ _ h.found ht
      refine ⟨_, hmem, rfl, h.hash, ?_, ?_⟩
      · rw [← hsource]
        exact List.mem_cons_self
      · intro d hd _
        rw [hsent] at hd
        obtain ⟨server, _, rfl⟩ := List.mem_map.mp hd
        exact hid.symm

theorem usesId_of_inFlight {pr pr' : PeerRequests E}
    (h : inFlight pr'.records <+ inFlight pr.records) {id : UInt16} (hu : pr.usesId id = false) :
    pr'.usesId id = false := by
  simp only [usesId, List.any_eq_false, Bool.and_eq_true, beq_iff_eq, not_and] at hu ⊢
  intro r hr huse
  have hmem := List.mem_filter.mp (h.subset (List.mem_filter.mpr ⟨hr, huse⟩))
  exact hu r hmem.1 huse

variable [DecidableEq E]

/-- resolve ends as soon as the generator gives an ID that no record in use has. -/
theorem resolve_defined (s : DnsServer E) (packet : DnsPacket) (endpoint : E) (ipv4 : Bool)
    (now : Int) {draws : List (Fin 0xffff)} (fresh : PeerRequestRecord E)
    (h : ∃ d ∈ draws, s.peerRequests.usesId (distribute d) = false) :
    ∃ s' sent, s.resolve packet endpoint ipv4 now draws fresh = some (s', sent) := by
  unfold resolve
  split
  · exact ⟨_, _, rfl⟩
  split
  · split
    · split
      · split
        · exact ⟨_, _, rfl⟩
        · exact ⟨_, _, rfl⟩
      · split
        · exact ⟨_, _, rfl⟩
        · exact ⟨_, _, rfl⟩
    · exact ⟨_, _, rfl⟩
  · obtain ⟨pr, hget, _⟩ | ⟨i, r, pr, hget, hnew⟩ := getNewRecord_cases s.peerRequests now fresh
    · rw [hget]
      exact ⟨_, _, rfl⟩
    · rw [hget]
      obtain ⟨a, b, heq, _, hsub⟩ := hnew.place
      have hin : inFlight pr.records <+ inFlight s.peerRequests.records := by
        rw [heq, inFlight, filter_append_free hnew.free]
        exact hsub
      obtain ⟨d, hd, hu⟩ := h
      obtain ⟨id, hid⟩ := getNewId_isSome ⟨d, hd, usesId_of_inFlight hin hu⟩
      simp only [hid, Option.bind_eq_bind, Option.bind_some]
      exact ⟨_, _, rfl⟩

theorem step_servers (s : DnsServer E) (e : Event E) (t : DnsServer E) (sent : List (Sent E))
    (hs : s.servers ≠ []) (h : s.step e = some (t, sent)) : t.servers ≠ [] := by
  have hend := step_endpoints h
  intro hnil
  rw [endpoints, hnil] at hend
  exact hs (List.map_eq_nil_iff.mp hend.symm)

/-- In every reachable state resolve can end, and a client that it does not refuse is
tracked exactly when no other record is taken for timed out. -/
theorem tracked_iff (servers : List (UpstreamServerInfo E)) (hservers : servers ≠ [])
    (es : List (Event E)) (s : DnsServer E) (os : List (List (Sent E)))
    (hrun : run servers es = some (s, os)) (packet : DnsPacket) (endpoint : E) (ipv4 : Bool)
    (now : Int) (draws : List (Fin 0xffff)) (fresh : PeerRequestRecord E) :
    (∃ d, s.peerRequests.usesId (distribute d) = false) ∧
    ((∃ d ∈ draws, s.peerRequests.usesId (distribute d) = false) →
      ∃ s' sent, s.resolve packet endpoint ipv4 now draws fresh = some (s', sent)) ∧
    ∀ s' sent, s.resolve packet endpoint ipv4 now draws fresh = some (s', sent) →
      ¬ Refuses sent →
      (Tracked s' sent packet endpoint ipv4 ↔ OwnRecordIfTimedOut s packet endpoint ipv4) := by
  have hs := inv_run hrun
  have hne : s.servers ≠ [] := Runs.run_invariant step_servers hservers hrun
  refine ⟨exists_unused_id hs.length, resolve_defined s packet endpoint ipv4 now fresh, ?_⟩
  intro s' sent h hnot
  exact tracked_of_resolved hs hne (resolve_resolved h) hnot

end DnsServer

/- Two clients ask for the address of w.ab, at second 100 and at second 101 of the clock. -/
def firstClient : Event Nat := .resolve (sampleQuery 7) 1 true 100 [firstDraw] freshRecord

def secondClient (s : DnsServer Nat) : Option (DnsServer Nat × List (Sent Nat)) :=
  s.resolve (sampleQuery 8) 2 true 101 [secondDraw] freshRecord

instance (s : DnsServer Nat) (sent : List (Sent Nat)) (packet : DnsPacket) (endpoint : Nat)
    (ipv4 : Bool) : Decidable (Tracked s sent packet endpoint ipv4) :=
  inferInstanceAs (Decidable (∃ r ∈ _, _ ∧ _ ∧ _ ∧ ∀ d ∈ _, _ → _))

instance (sent : List (Sent Nat)) : Decidable (Refuses sent) :=
  inferInstanceAs (Decidable (∃ d ∈ _, _))

/-- The second client is neither refused nor tracked. -/
theorem second_client_untracked :
    ∃ s os s' sent, DnsServer.run sampleServers [firstClient] = some (s, os) ∧
      secondClient s = some (s', sent) ∧ ¬ Refuses sent ∧
      ¬ Tracked s' sent (sampleQuery 8) 2 true := by
  have hrun : ((DnsServer.run sampleServers [firstClient]).bind fun x =>
      (secondClient x.1).map fun y =>
        decide (¬ Refuses y.2 ∧ ¬ Tracked y.1 y.2 (sampleQuery 8) 2 true)) = some true := by
    decide +kernel
  obtain ⟨⟨s, os⟩, hs, hrun⟩ := Option.bind_eq_some_iff.mp hrun
  obtain ⟨⟨s', sent⟩, hs', hrun⟩ := Option.map_eq_some_iff.mp hrun
  exact ⟨s, os, s', sent, hs, hs', of_decide_eq_true hrun⟩

theorem tracked_iff_first_client :
    sampleServers ≠ [] ∧ ∃ s os, DnsServer.run sampleServers [firstClient] = some (s, os) ∧
      ∃ s' sent, secondClient s = some (s', sent) ∧ ¬ Refuses sent ∧
        (Tracked s' sent (sampleQuery 8) 2 true ↔
          OwnRecordIfTimedOut s (sampleQuery 8) 2 true) := by
  have hne : sampleServers ≠ [] := by simp [sampleServers]
  have hrun : ((DnsServer.run sampleServers [firstClient]).bind fun x =>
      (secondClient x.1).map fun y => decide (¬ Refuses y.2)) = some true := by
    decide +kernel
  obtain ⟨⟨s, os⟩, hs, hrun⟩ := Option.bind_eq_some_iff.mp hrun
  obtain ⟨⟨s', sent⟩, hs', hrun⟩ := Option.map_eq_some_iff.mp hrun
  have hnot : ¬ Refuses sent := of_decide_eq_true hrun
  exact ⟨hne, s, os, hs, s', sent, hs', hnot,
    (DnsServer.tracked_iff sampleServers hne [firstClient] s os hs (sampleQuery 8) 2 true 101
      [secondDraw]
      freshRecord).2.2 s' sent hs' hnot⟩

end DnsWrapper.Dns
