import DnsWrapper.DnsServer

/-! What one event can do to the table of requests in flight, said once for each handler,
and the invariant of the table that every event keeps. -/
namespace DnsWrapper.Dns
open NetCommon Bookkeeping PeerRequests
open scoped List
variable {E : Type}

/- The records in use. -/
def inFlight (rs : List (PeerRequestRecord E)) : List (PeerRequestRecord E) :=
  rs.filter PeerRequestRecord.inUse

theorem inFlight_append_used {a b : List (PeerRequestRecord E)} {r : PeerRequestRecord E}
    (h : r.inUse = true) : inFlight (a ++ r :: b) = inFlight a ++ r :: inFlight b := by
  rw [inFlight, List.filter_append, List.filter_cons_of_pos h]
  rfl

theorem inFlight_append_free {a b : List (PeerRequestRecord E)} {r : PeerRequestRecord E}
    (h : r.sentTo = none) : inFlight (a ++ r :: b) = inFlight a ++ inFlight b := by
  rw [inFlight, filter_append_free h, List.filter_append]
  rfl

def Refuses (sent : List (Sent E)) : Prop := ∃ d ∈ sent, d.kind = .refused

namespace DnsServer

def records (s : DnsServer E) : List (PeerRequestRecord E) := s.peerRequests.records

/- The record r of the table, between a and b, was forwarded for the digest. -/
structure Pending (s : DnsServer E) (digest : List UInt8) (a : List (PeerRequestRecord E))
    (r : PeerRequestRecord E) (b : List (PeerRequestRecord E)) : Prop where
  split : s.records = a ++ r :: b
  inUse : r.inUse = true
  flags : r.flags &&& peerFlagMask = fwdFlags
  hash : r.hash = digest
  found : s.peerRequests.lookupByQuery digest fwdFlags peerFlagMask = some (a.length, r)

theorem Pending.mem {s : DnsServer E} {digest : List UInt8} {a b : List (PeerRequestRecord E)}
    {r : PeerRequestRecord E} (h : s.Pending digest a r b) : r ∈ inFlight s.records := by
  rw [h.split, inFlight_append_used h.inUse]
  exact List.mem_append_right _ List.mem_cons_self

/- Every exit of resolve with what it does to the table. -/
inductive Resolved (s : DnsServer E) (packet : DnsPacket) (endpoint : E) (ipv4 : Bool) :
    DnsServer E → List (Sent E) → Prop where
  | unconfigured (h : s.servers = []) : Resolved s packet endpoint ipv4 s []
  | waiting {a r b} (h : s.Pending packet.hash a r b) (ht : r.hasTimedOut = false)
      (hc : addSource packet endpoint ipv4 ∈ r.sources) : Resolved s packet endpoint ipv4 s []
  | refused {s'} (hin : inFlight s'.records <+ inFlight s.records)
      (htidy : Tidy s.records → Tidy s'.records) (hlen : s'.records.length = s.records.length) :
      Resolved s packet endpoint ipv4 s' [refuse packet endpoint ipv4]
  | joined {a r b s'} (h : s.Pending packet.hash a r b) (ht : r.hasTimedOut = false)
      (hc : addSource packet endpoint ipv4 ∉ r.sources)
      (hr : s'.records =
        a ++ { r with additional := addSource packet endpoint ipv4 :: r.additional } :: b) :
      Resolved s packet endpoint ipv4 s' []
  | rearmed {a r b s' sent} (h : s.Pending packet.hash a r b) (ht : r.hasTimedOut = true)
      (hr : s'.records = a ++ { r.freed with sentTo := some (s.servers.length - 1) } :: b)
      (hsent : sent = s.servers.map fun server =>
        ⟨.forwarded, packet, server.endpoint, server.ipv4⟩) : Resolved s packet endpoint ipv4 s' sent
  | opened {a r b id pr s' sent}
      (hnone : s.peerRequests.lookupByQuery packet.hash fwdFlags peerFlagMask = none)
      (hnew : NewRecord s.peerRequests pr a.length r) (hpr : pr.records = a ++ r :: b)
      (hin : inFlight (a ++ b) <+ inFlight s.records) (hid : pr.Admissible id)
      (hr : s'.records = a ++ { r with
        source := addSource packet endpoint ipv4, newId := id, hash := packet.hash,
        flags := fwdFlags, sentTo := some (s.servers.length - 1) } :: b)
      (hsent : sent = s.servers.map fun server =>
        ⟨.forwarded, packet.setId id, server.endpoint, server.ipv4⟩) :
      Resolved s packet endpoint ipv4 s' sent

theorem pending_of_lookup {s : DnsServer E} {digest : List UInt8} {i : Nat}
    {r : PeerRequestRecord E}
    (h : s.peerRequests.lookupByQuery digest fwdFlags peerFlagMask = some (i, r)) :
    ∃ a b, s.Pending digest a r b ∧ a.length = i ∧
      ∀ y, s.peerRequests.records.set i y = a ++ y :: b := by
  obtain ⟨_, hget, haccept⟩ := find_some h
  obtain ⟨a, b, heq, hlen, hset⟩ := split_at hget
  simp only [Bool.and_eq_true, beq_iff_eq] at haccept
  rw [Nat.sub_zero] at hlen hset
  refine ⟨a, b, ⟨heq, haccept.1.1, haccept.1.2, haccept.2, ?_⟩, hlen, hset⟩
  rw [hlen]
  exact h

/- Every exit of processUpstreamResponse with what it does to the table. -/
inductive Responded (s : DnsServer E) (packet : DnsPacket) :
    DnsServer E → List (Sent E) → Prop where
  | dropped {s'} (h : s'.records = s.records) : Responded s packet s' []
  | relayed {a r b s'} (hsplit : s.records = a ++ r :: b) (huse : r.inUse = true)
      (hid : r.newId = packet.getId) (hhash : r.hash = packet.hash)
      (hr : s'.records = a ++ r.freed :: b) : Responded s packet s' (relay packet r.sources)

/-- The records in use were all forwarded by resolve, one for each digest, and the table
stays small. -/
structure Inv (s : DnsServer E) : Prop where
  flags : ∀ r ∈ inFlight s.records, r.flags = fwdFlags
  distinct : ((inFlight s.records).map PeerRequestRecord.hash).Nodup
  tidy : Tidy s.records
  length : s.records.length ≤ maxFwdQueries

theorem inv_start (servers : List (UpstreamServerInfo E)) : Inv (start servers) where
  flags := nofun
  distinct := List.nodup_nil
  tidy := nofun
  length := Nat.zero_le _

/- No record in use waits for a digest that LookupByQuery does not find. -/
theorem not_mem_of_lookup {s : DnsServer E} (hs : Inv s) {digest : List UInt8}
    (h : s.peerRequests.lookupByQuery digest fwdFlags peerFlagMask = none) :
    digest ∉ (inFlight s.records).map PeerRequestRecord.hash := by
  intro hmem
  obtain ⟨r, hr, rfl⟩ := List.mem_map.mp hmem
  have hflags := hs.flags r hr
  obtain ⟨hrec, huse⟩ := List.mem_filter.mp hr
  have hno := find_none h r hrec
  simp [huse, hflags, fwdFlags] at hno

/- A record in use changes, but not its digest. -/
theorem inv_replace {s s' : DnsServer E} (hs : Inv s) {a b : List (PeerRequestRecord E)}
    {r r' : PeerRequestRecord E} (hsplit : s.records = a ++ r :: b)
    (hr : s'.records = a ++ r' :: b) (huse : r.inUse = true) (huse' : r'.inUse = true)
    (hhash : r'.hash = r.hash) (hflags : r'.flags = fwdFlags) : Inv s' where
  flags := by
    have hold := hs.flags
    rw [hsplit, inFlight_append_used huse] at hold
    rw [hr, inFlight_append_used huse']
    intro x hx
    simp only [List.mem_append, List.mem_cons] at hold hx
    obtain hx | rfl | hx := hx
    · exact hold x (.inl hx)
    · exact hflags
    · exact hold x (.inr (.inr hx))
  distinct := by
    have hold := hs.distinct
    rw [hsplit, inFlight_append_used huse] at hold
    rw [hr, inFlight_append_used huse']
    simpa only [List.map_append, List.map_cons, hhash] using hold
  tidy := by
    have hold := hs.tidy
    rw [hsplit, tidy_append, tidy_cons] at hold
    rw [hr, tidy_append, tidy_cons]
    refine ⟨hold.1, ?_, hold.2.2⟩
    intro hnone
    rw [PeerRequestRecord.inUse, hnone] at huse'
    cases huse'
  length := by
    have hold := hs.length
    rw [hsplit, List.length_append, List.length_cons] at hold
    rwa [hr, List.length_append, List.length_cons]

/- A free record comes into use for a digest that no other record has. -/
theorem inv_open {s s' : DnsServer E} (hs : Inv s) {pr : PeerRequests E}
    {a b : List (PeerRequestRecord E)} {r r' : PeerRequestRecord E}
    (hnew : NewRecord s.peerRequests pr a.length r) (hpr : pr.records = a ++ r :: b)
    (hin : inFlight (a ++ b) <+ inFlight s.records) (hr : s'.records = a ++ r' :: b)
    (huse : r'.inUse = true) (hflags : r'.flags = fwdFlags)
    (hhash : r'.hash ∉ (inFlight s.records).map PeerRequestRecord.hash) : Inv s' where
  flags := by
    rw [hr, inFlight_append_used huse]
    intro x hx
    simp only [List.mem_append, List.mem_cons] at hx
    have hmem : x ∈ inFlight (a ++ b) → x.flags = fwdFlags := fun h => hs.flags x (hin.subset h)
    rw [inFlight, List.filter_append, List.mem_append] at hmem
    obtain hx | rfl | hx := hx
    · exact hmem (.inl hx)
    · exact hflags
    · exact hmem (.inr hx)
  distinct := by
    have hsub := hin.map PeerRequestRecord.hash
    have hperm : ((inFlight s'.records).map PeerRequestRecord.hash).Perm
        (r'.hash :: (inFlight (a ++ b)).map PeerRequestRecord.hash) := by
      rw [hr, inFlight_append_used huse, inFlight, inFlight, inFlight, List.filter_append,
        List.map_append, List.map_cons, List.map_append]
      exact List.perm_middle
    rw [hperm.nodup_iff, List.nodup_cons]
    exact ⟨fun hmem => hhash (hsub.subset hmem), hs.distinct.sublist hsub⟩
  tidy := by
    have hold := (hnew.tidy hs.tidy).2
    rw [hpr, tidy_append, tidy_cons] at hold
    rw [hr, tidy_append, tidy_cons]
    refine ⟨hold.1, ?_, hold.2.2⟩
    intro hnone
    rw [PeerRequestRecord.inUse, hnone] at huse
    cases huse
  length := by
    have hold := hnew.length hs.length
    rw [hpr, List.length_append, List.length_cons] at hold
    rwa [hr, List.length_append, List.length_cons]

theorem inv_close {s s' : DnsServer E} (hs : Inv s) {a b : List (PeerRequestRecord E)}
    {r : PeerRequestRecord E} (hsplit : s.records = a ++ r :: b)
    (hr : s'.records = a ++ r.freed :: b) : Inv s' := by
  have hsub : inFlight s'.records <+ inFlight s.records := by
    rw [hr, hsplit, inFlight, filter_append_free rfl]
    exact filter_append_sublist a b r
  refine ⟨fun x hx => hs.flags x (hsub.subset hx), hs.distinct.sublist (hsub.map _), ?_, ?_⟩
  · have hold := hs.tidy
    rw [hsplit, tidy_append, tidy_cons] at hold
    rw [hr, tidy_append, tidy_cons]
    exact ⟨hold.1, fun _ => rfl, hold.2.2⟩
  · have hold := hs.length
    rw [hsplit, List.length_append, List.length_cons] at hold
    rwa [hr, List.length_append, List.length_cons]

theorem inv_resolved {s s' : DnsServer E} {packet : DnsPacket} {endpoint : E} {ipv4 : Bool}
    {sent : List (Sent E)} (hs : Inv s) (h : Resolved s packet endpoint ipv4 s' sent) : Inv s' := by
  cases h with
  | unconfigured h => exact hs
  | waiting h ht hc => exact hs
  | refused hin htidy hlen =>
    exact ⟨fun r hr => hs.flags r (hin.subset hr), hs.distinct.sublist (hin.map _),
      htidy hs.tidy, by rw [hlen]; exact hs.length⟩
  | joined h ht hc hr =>
    have hflags := hs.flags _ h.mem
    exact inv_replace hs h.split hr h.inUse h.inUse rfl hflags
  | rearmed h ht hr hsent => exact inv_replace hs h.split hr h.inUse rfl rfl rfl
  | opened hnone hnew hpr hin hid hr hsent =>
    exact inv_open hs hnew hpr hin hr rfl rfl (not_mem_of_lookup hs hnone)

theorem inv_responded {s s' : DnsServer E} {packet : DnsPacket} {sent : List (Sent E)}
    (hs : Inv s) (h : Responded s packet s' sent) : Inv s' := by
  cases h with
  | dropped h =>
    exact ⟨by rw [h]; exact hs.flags, by rw [h]; exact hs.distinct, by rw [h]; exact hs.tidy,
      by rw [h]; exact hs.length⟩
  | relayed hsplit huse hid hhash hr => exact inv_close hs hsplit hr

/- The upstream servers, without their statistics. -/
def endpoints (s : DnsServer E) : List (E × Bool) :=
  s.servers.map fun server => (server.endpoint, server.ipv4)

theorem updateStats_endpoints (s : DnsServer E) (k : Nat) (f : ServerStats → ServerStats) :
    (s.updateStats k f).endpoints = s.endpoints := by
  apply List.ext_getElem?
  intro i
  simp only [endpoints, updateStats, List.getElem?_map, List.getElem?_modify]
  cases s.servers[i]? with
  | none => rfl
  | some server => by_cases hk : k = i <;> simp [hk]

theorem forward_endpoints (s : DnsServer E) (packet : DnsPacket) (pr : PeerRequests E) (i : Nat)
    (r : PeerRequestRecord E) : (s.forward packet pr i r).1.endpoints = s.endpoints := by
  rw [endpoints, forward, List.map_map]
  rfl

section Exits
variable (s : DnsServer E) (packet : DnsPacket) (endpoint : E) (ipv4 : Bool) (now : Int)
  (draws : List (Fin 0xffff)) (fresh : PeerRequestRecord E)

/- The exits of resolve, with the results of what it calls. -/
inductive ResolveExit : DnsServer E → List (Sent E) → Prop where
  | unconfigured (hs : s.servers = []) : ResolveExit s []
  | repeated {i r} (hs : s.servers ≠ [])
      (hlookup : s.peerRequests.lookupByQuery packet.hash fwdFlags peerFlagMask = some (i, r))
      (ht : r.hasTimedOut = false) (hc : addSource packet endpoint ipv4 ∈ r.sources)
      (hnow : now - r.time < 2) : ResolveExit s [refuse packet endpoint ipv4]
  | waiting {i r} (hs : s.servers ≠ [])
      (hlookup : s.peerRequests.lookupByQuery packet.hash fwdFlags peerFlagMask = some (i, r))
      (ht : r.hasTimedOut = false) (hc : addSource packet endpoint ipv4 ∈ r.sources)
      (hnow : ¬ now - r.time < 2) : ResolveExit s []
  | exhausted {i r} (hs : s.servers ≠ [])
      (hlookup : s.peerRequests.lookupByQuery packet.hash fwdFlags peerFlagMask = some (i, r))
      (ht : r.hasTimedOut = false) (hc : addSource packet endpoint ipv4 ∉ r.sources)
      (hnone : s.peerRequests.getNewPeerSource = none) : ResolveExit s [refuse packet endpoint ipv4]
  | joined {i r pr} (hs : s.servers ≠ [])
      (hlookup : s.peerRequests.lookupByQuery packet.hash fwdFlags peerFlagMask = some (i, r))
      (ht : r.hasTimedOut = false) (hc : addSource packet endpoint ipv4 ∉ r.sources)
      (hpr : s.peerRequests.getNewPeerSource = some pr) :
      ResolveExit { s with
        peerRequests := pr.setRecord i
          { r with additional := addSource packet endpoint ipv4 :: r.additional } } []
  | rearmed {i r s' sent} (hs : s.servers ≠ [])
      (hlookup : s.peerRequests.lookupByQuery packet.hash fwdFlags peerFlagMask = some (i, r))
      (ht : r.hasTimedOut = true)
      (h : s.forward packet (s.peerRequests.freePeerRequestRecord i r) i r.freed = (s', sent)) :
      ResolveExit s' sent
  | full {pr} (hs : s.servers ≠ [])
      (hlookup : s.peerRequests.lookupByQuery packet.hash fwdFlags peerFlagMask = none)
      (hget : s.peerRequests.getNewRecord now false fresh = (none, pr)) :
      ResolveExit { s with peerRequests := pr } [refuse packet endpoint ipv4]
  | opened {i r pr id s' sent} (hs : s.servers ≠ [])
      (hlookup : s.peerRequests.lookupByQuery packet.hash fwdFlags peerFlagMask = none)
      (hget : s.peerRequests.getNewRecord now false fresh = (some (i, r), pr))
      (hid : pr.getNewId draws = some id)
      (h : s.forward (packet.setId id) pr i { r with
        source := addSource packet endpoint ipv4, newId := id, hash := packet.hash,
        flags := fwdFlags } = (s', sent)) : ResolveExit s' sent

end Exits

variable [DecidableEq E]

theorem resolve_exit {s s' : DnsServer E} {packet : DnsPacket} {endpoint : E} {ipv4 : Bool}
    {now : Int} {draws : List (Fin 0xffff)} {fresh : PeerRequestRecord E} {sent : List (Sent E)}
    (h : s.resolve packet endpoint ipv4 now draws fresh = some (s', sent)) :
    ResolveExit s packet endpoint ipv4 now draws fresh s' sent := by
  unfold resolve at h
  split at h
  · rename_i hempty
    cases h
    exact .unconfigured (List.isEmpty_iff.mp hempty)
  rename_i hempty
  have hs : s.servers ≠ [] := fun hnil => hempty (List.isEmpty_iff.mpr hnil)
  split at h
  · rename_i i r hlookup
    split at h
    · rename_i ht
      split at h
      · rename_i hc
        split at h
        · rename_i hnow
          cases h
          exact .repeated hs hlookup ht hc hnow
        · rename_i hnow
          cases h
          exact .waiting hs hlookup ht hc hnow
      · rename_i hc
        split at h
        · rename_i hnone
          cases h
          exact .exhausted hs hlookup ht hc hnone
        · rename_i pr hpr
          cases h
          exact .joined hs hlookup ht hc hpr
    · rename_i ht
      exact .rearmed hs hlookup (by simpa using ht) (Option.some.inj h)
  · rename_i hlookup
    split at h
    · rename_i pr hget
      cases h
      exact .full hs hlookup hget
    · rename_i i r pr hget
      obtain ⟨id, hid, h⟩ := Option.bind_eq_some_iff.mp h
      exact .opened hs hlookup hget hid (Option.some.inj h)

theorem resolve_resolved {s s' : DnsServer E} {packet : DnsPacket} {endpoint : E} {ipv4 : Bool}
    {now : Int} {draws : List (Fin 0xffff)} {fresh : PeerRequestRecord E} {sent : List (Sent E)}
    (h : s.resolve packet endpoint ipv4 now draws fresh = some (s', sent)) :
    Resolved s packet endpoint ipv4 s' sent := by
  have hrefuse : Resolved s packet endpoint ipv4 s [refuse packet endpoint ipv4] :=
    .refused (List.Sublist.refl _) id rfl
  cases resolve_exit h with
  | unconfigured hs => exact .unconfigured hs
  | repeated hs hlookup ht hc hnow => exact hrefuse
  | waiting hs hlookup ht hc hnow =>
    obtain ⟨a, b, hp, _⟩ := pending_of_lookup hlookup
    exact .waiting hp ht hc
  | exhausted hs hlookup ht hc hnone => exact hrefuse
  | joined hs hlookup ht hc hpr =>
    obtain ⟨a, b, hp, _, hset⟩ := pending_of_lookup hlookup
    refine .joined hp ht hc ?_
    rw [records, setRecord, getNewPeerSource_records hpr]
    exact hset _
  | rearmed hs hlookup ht h =>
    obtain ⟨a, b, hp, _, hset⟩ := pending_of_lookup hlookup
    cases h
    refine .rearmed hp ht ?_ rfl
    rw [← hset, records]
    simp only [freePeerRequestRecord, setRecord, List.set_set]
  | full hs hlookup hget =>
    obtain ⟨hin, htidy, hlen⟩ := kept_of_full hget
    exact .refused hin htidy hlen
  | opened hs hlookup hget hid h =>
    have hnew := newRecord_of_get hget
    obtain ⟨a, b, heq, rfl, hsub⟩ := hnew.place
    cases h
    refine .opened hlookup hnew heq hsub (getNewId_admissible hid) ?_ rfl
    simp only [records, setRecord, heq, List.set_append_right _ _ (Nat.le_refl _),
      Nat.sub_self, List.set_cons_zero]

theorem response_responded {s s' : DnsServer E} {packet : DnsPacket} {endpoint : E} {now : Int}
    {sent : List (Sent E)} (h : s.processUpstreamResponse packet endpoint now = (s', sent)) :
    Responded s packet s' sent := by
  unfold processUpstreamResponse at h
  split at h
  · cases h
    exact .dropped rfl
  split at h
  · cases h
    exact .dropped rfl
  split at h
  · cases h
    exact .dropped rfl
  · rename_i i r hlookup
    cases h
    obtain ⟨_, hget, haccept⟩ := find_some hlookup
    obtain ⟨a, b, heq, _, hset⟩ := split_at hget
    simp only [Bool.and_eq_true, beq_iff_eq] at haccept
    rw [Nat.sub_zero] at hset
    exact .relayed heq haccept.1.1 haccept.1.2 haccept.2 (hset _)

/- resolve leaves the servers alone or counts a query for each of them. -/
theorem resolve_servers {s s' : DnsServer E} {packet : DnsPacket} {endpoint : E} {ipv4 : Bool}
    {now : Int} {draws : List (Fin 0xffff)} {fresh : PeerRequestRecord E} {sent : List (Sent E)}
    (h : s.resolve packet endpoint ipv4 now draws fresh = some (s', sent)) :
    s'.servers = s.servers ∨ ∃ packet pr i r, s' = (s.forward packet pr i r).1 := by
  cases resolve_exit h with
  | unconfigured hs => exact .inl rfl
  | repeated hs hlookup ht hc hnow => exact .inl rfl
  | waiting hs hlookup ht hc hnow => exact .inl rfl
  | exhausted hs hlookup ht hc hnone => exact .inl rfl
  | joined hs hlookup ht hc hpr => exact .inl rfl
  | rearmed hs hlookup ht h => exact .inr ⟨_, _, _, _, (congrArg Prod.fst h).symm⟩
  | full hs hlookup hget => exact .inl rfl
  | opened hs hlookup hget hid h => exact .inr ⟨_, _, _, _, (congrArg Prod.fst h).symm⟩

theorem resolve_endpoints {s s' : DnsServer E} {packet : DnsPacket} {endpoint : E} {ipv4 : Bool}
    {now : Int} {draws : List (Fin 0xffff)} {fresh : PeerRequestRecord E} {sent : List (Sent E)}
    (h : s.resolve packet endpoint ipv4 now draws fresh = some (s', sent)) :
    s'.endpoints = s.endpoints := by
  obtain hsame | ⟨p, pr, i, r, rfl⟩ := resolve_servers h
  · rw [endpoints, endpoints, hsame]
  · exact forward_endpoints s p pr i r

theorem response_endpoints (s : DnsServer E) (packet : DnsPacket) (endpoint : E) (now : Int) :
    (s.processUpstreamResponse packet endpoint now).1.endpoints = s.endpoints := by
  unfold processUpstreamResponse
  split
  · rfl
  split
  · exact updateStats_endpoints s _ _
  split
  · exact updateStats_endpoints s _ _
  · exact updateStats_endpoints s _ _

/- No event changes where the upstream servers are. -/
theorem step_endpoints {s t : DnsServer E} {e : Event E} {sent : List (Sent E)}
    (h : s.step e = some (t, sent)) : t.endpoints = s.endpoints := by
  cases e with
  | resolve packet endpoint ipv4 now draws fresh => exact resolve_endpoints h
  | response packet endpoint now =>
    have hs := congrArg (fun x => x.1.endpoints) (Option.some.inj h)
    rw [← hs]
    exact response_endpoints s packet endpoint now
  | redirect packet endpoint ipv4 target =>
    cases h
    rfl

theorem inv_step (s : DnsServer E) (e : Event E) (t : DnsServer E) (sent : List (Sent E))
    (hs : Inv s) (h : s.step e = some (t, sent)) : Inv t := by
  cases e with
  | resolve packet endpoint ipv4 now draws fresh => exact inv_resolved hs (resolve_resolved h)
  | response packet endpoint now =>
    exact inv_responded hs (response_responded (Option.some.inj h))
  | redirect packet endpoint ipv4 target =>
    cases h
    exact hs

theorem inv_run {servers : List (UpstreamServerInfo E)} {es : List (Event E)} {s : DnsServer E}
    {os : List (List (Sent E))} (h : run servers es = some (s, os)) : Inv s :=
  Runs.run_invariant inv_step (inv_start servers) h

/- Handling events does not change which servers are configured. -/
theorem endpoints_run {servers : List (UpstreamServerInfo E)} {es : List (Event E)}
    {s : DnsServer E} {os : List (List (Sent E))} (h : run servers es = some (s, os)) :
    s.endpoints = (start servers).endpoints := by
  have hkeep : ∀ (s : DnsServer E) (e : Event E) (t : DnsServer E) (sent : List (Sent E)),
      s.endpoints = (start servers).endpoints → s.step e = some (t, sent) →
      t.endpoints = (start servers).endpoints := by
    intro s e t sent hs hstep
    rw [step_endpoints hstep, hs]
  exact Runs.run_invariant hkeep rfl h

end DnsServer

/- A query for the address of w.ab, one upstream server and unused memory. -/
def sampleQuery (id : UInt16) : DnsPacket where
  header := ⟨id, 1, 0, 1, 0, 0, 0⟩
  questions := [⟨sampleName, qtA, qtcIn⟩]
  answers := []
  authorities := []
  additionals := []

def sampleServers : List (UpstreamServerInfo Nat) := [⟨0, true, ⟨0, 0, 0, 0, 0, 0⟩⟩]

def freshRecord : PeerRequestRecord Nat := ⟨⟨0, true, 0⟩, [], none, 0, 0, 0, 0, [], false⟩

end DnsWrapper.Dns
