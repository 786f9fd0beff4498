import DnsWrapper.ServerSteps

/-! The records in use differ from each other in ID and in digest, and the sources of one
record are different clients. A lookup therefore has at most one candidate, and an ID for
a new record can always be found. Sources are values here; nodes_refine_lists ties the lists of
them to the nodes that GetNewPeerSource and FreePeerRequestRecord link. -/
namespace DnsWrapper.Dns
open NetCommon Bookkeeping PeerRequests
open scoped List
variable {E : Type}

/- One record in use for each ID, one source of it for each client. -/
structure Separated (s : DnsServer E) : Prop where
  ids : ((inFlight s.records).map PeerRequestRecord.newId).Nodup
  sources : ∀ r ∈ inFlight s.records, r.sources.Nodup

namespace DnsServer

theorem separated_start (servers : List (UpstreamServerInfo E)) : Separated (start servers) :=
  ⟨List.nodup_nil, nofun⟩

theorem separated_sublist {s s' : DnsServer E} (hs : Separated s)
    (h : inFlight s'.records <+ inFlight s.records) : Separated s' :=
  ⟨hs.ids.sublist (h.map _), fun r hr => hs.sources r (h.subset hr)⟩

/- A record in use changes its sources, but not its ID. -/
theorem separated_replace {s s' : DnsServer E} (hs : Separated s)
    {a b : List (PeerRequestRecord E)} {r r' : PeerRequestRecord E}
    (hsplit : s.records = a ++ r :: b) (hr : s'.records = a ++ r' :: b) (huse : r.inUse = true)
    (huse' : r'.inUse = true) (hid : r'.newId = r.newId)
    (hsources : r.sources.Nodup → r'.sources.Nodup) : Separated s' := by
  have hids := hs.ids
  have hold := hs.sources
  rw [hsplit, inFlight_append_used huse] at hids hold
  refine ⟨?_, ?_⟩
  · rw [hr, inFlight_append_used huse']
    simpa only [List.map_append, List.map_cons, hid] using hids
  · rw [hr, inFlight_append_used huse']
    intro x hx
    simp only [List.mem_append, List.mem_cons] at hold hx
    obtain hx | rfl | hx := hx
    · exact hold x (.inl hx)
    · exact hsources (hold r (.inr (.inl rfl)))
    · exact hold x (.inr (.inr hx))

theorem not_mem_of_usesId {pr : PeerRequests E} {id : UInt16} (h : pr.usesId id = false) :
    id ∉ (inFlight pr.records).map PeerRequestRecord.newId := by
  simp only [usesId, List.any_eq_false, Bool.and_eq_true, beq_iff_eq, not_and] at h
  intro hmem
  obtain ⟨r, hr, hid⟩ := List.mem_map.mp hmem
  obtain ⟨hrec, huse⟩ := List.mem_filter.mp hr
  exact h r hrec huse hid

/- A free record comes into use under an ID that no other record has, with one source. -/
theorem separated_open {s s' : DnsServer E} (hs : Separated s) {pr : PeerRequests E}
    {a b : List (PeerRequestRecord E)} {r r' : PeerRequestRecord E} {id : UInt16}
    (hpr : pr.records = a ++ r :: b) (hfree : r.sentTo = none)
    (hin : inFlight (a ++ b) <+ inFlight s.records) (hid : pr.usesId id = false)
    (hr : s'.records = a ++ r' :: b) (huse : r'.inUse = true) (hid' : r'.newId = id)
    (hsources : r'.additional = []) : Separated s' := by
  have hnot := not_mem_of_usesId hid
  rw [hpr, inFlight_append_free hfree, ← hid'] at hnot
  rw [inFlight, List.filter_append] at hin
  have hperm : inFlight s'.records ~ r' :: (inFlight a ++ inFlight b) := by
    rw [hr, inFlight_append_used huse]
    exact List.perm_middle
  refine ⟨?_, ?_⟩
  · rw [(hperm.map _).nodup_iff, List.map_cons, List.nodup_cons]
    exact ⟨hnot, hs.ids.sublist (hin.map _)⟩
  · intro x hx
    cases List.mem_cons.mp (hperm.mem_iff.mp hx) with
    | inl hnew =>
      rw [hnew, PeerRequestRecord.sources, hsources]
      exact List.nodup_singleton _
    | inr hold => exact hs.sources x (hin.subset hold)

theorem separated_resolved {s s' : DnsServer E} {packet : DnsPacket} {endpoint : E} {ipv4 : Bool}
    {sent : List (Sent E)} (hinv : Inv s) (hs : Separated s)
    (h : Resolved s packet endpoint ipv4 s' sent) : Separated s' := by
  cases h with
  | unconfigured h => exact hs
  | waiting h ht hc => exact hs
  | refused hin htidy hlen => exact separated_sublist hs hin
  | joined h ht hc hr =>
    refine separated_replace hs h.split hr h.inUse h.inUse rfl ?_
    intro hnodup
    refine (List.Perm.swap _ _ _).nodup_iff.mp (List.nodup_cons.mpr ⟨hc, hnodup⟩)
  | rearmed h ht hr hsent =>
    exact separated_replace hs h.split hr h.inUse rfl rfl fun _ => List.nodup_singleton _
  | opened hnone hnew hpr hin hid hr hsent =>
    exact separated_open hs hpr hnew.free hin hid.2 hr rfl rfl (hnew.tidy hinv.tidy).1

theorem separated_responded {s s' : DnsServer E} {packet : DnsPacket} {sent : List (Sent E)}
    (hs : Separated s) (h : Responded s packet s' sent) : Separated s' := by
  cases h with
  | dropped h => exact separated_sublist hs (by rw [h])
  | @relayed a r b _ hsplit huse hid hhash hr =>
    refine separated_sublist hs ?_
    rw [hr, hsplit, inFlight, filter_append_free rfl]
    exact filter_append_sublist a b r

theorem pairwise_inFlight {κ : Type} {f : PeerRequestRecord E → κ}
    {rs : List (PeerRequestRecord E)} (h : ((inFlight rs).map f).Nodup) :
    rs.Pairwise fun r x => r.inUse = true → x.inUse = true → f r ≠ f x := by
  rw [inFlight, List.Nodup, List.pairwise_map, List.pairwise_filter] at h
  exact h

/- Two places whose records are in use and agree in something listed once are one. -/
theorem place_unique {κ : Type} {f : PeerRequestRecord E → κ} {rs : List (PeerRequestRecord E)}
    (h : ((inFlight rs).map f).Nodup) {i j : Nat} {r x : PeerRequestRecord E}
    (hr : rs[i]? = some r) (hx : rs[j]? = some x) (huse : r.inUse = true) (hxuse : x.inUse = true)
    (hf : f r = f x) : i = j := by
  have hpair := List.pairwise_iff_getElem.mp (pairwise_inFlight h)
  obtain ⟨hi, rfl⟩ := List.getElem?_eq_some_iff.mp hr
  obtain ⟨hj, rfl⟩ := List.getElem?_eq_some_iff.mp hx
  rcases Nat.lt_trichotomy i j with hlt | heq | hgt
  · exact absurd hf (hpair i j hi hj hlt huse hxuse)
  · exact heq
  · exact absurd hf.symm (hpair j i hj hi hgt hxuse huse)

theorem find_unique {accept : PeerRequestRecord E → Bool} {rs : List (PeerRequestRecord E)}
    {i : Nat} {r : PeerRequestRecord E} (hr : rs[i]? = some r) (haccept : accept r = true)
    (honly : ∀ j x, rs[j]? = some x → accept x = true → j = i) :
    find accept 0 rs = some (i, r) := by
  cases hfind : find accept 0 rs with
  | none =>
    have hno := find_none hfind r (List.mem_of_getElem? hr)
    rw [haccept] at hno
    cases hno
  | some found =>
    obtain ⟨j, x⟩ := found
    obtain ⟨_, hx, hxaccept⟩ := find_some hfind
    rw [Nat.sub_zero] at hx
    have hji := honly j x hx hxaccept
    subst hji
    rw [hr] at hx
    cases hx
    rfl

/- GetNewRecord leaves at most 149 records in use, since the one it returns is free. -/
theorem inFlight_lt_of_newRecord {s : DnsServer E} (hs : Inv s) {pr : PeerRequests E} {i : Nat}
    {r : PeerRequestRecord E} (hnew : NewRecord s.peerRequests pr i r) :
    (inFlight pr.records).length < maxFwdQueries := by
  have hlen := hnew.length hs.length
  obtain ⟨a, b, heq, _, _⟩ := hnew.place
  have hle : (inFlight (a ++ b)).length ≤ (a ++ b).length := List.length_filter_le _ _
  rw [heq, List.length_append, List.length_cons] at hlen
  rw [heq, inFlight, filter_append_free hnew.free]
  rw [List.length_append, inFlight] at hle
  omega

variable [DecidableEq E]

theorem separated_step (s : DnsServer E) (e : Event E) (t : DnsServer E) (sent : List (Sent E))
    (hs : Inv s ∧ Separated s) (h : s.step e = some (t, sent)) : Inv t ∧ Separated t := by
  refine ⟨inv_step s e t sent hs.1 h, ?_⟩
  cases e with
  | resolve packet endpoint ipv4 now draws fresh =>
    exact separated_resolved hs.1 hs.2 (resolve_resolved h)
  | response packet endpoint now =>
    exact separated_responded hs.2 (response_responded (Option.some.inj h))
  | redirect packet endpoint ipv4 target =>
    cases h
    exact hs.2

theorem separated_run {servers : List (UpstreamServerInfo E)} {es : List (Event E)}
    {s : DnsServer E} {os : List (List (Sent E))} (h : run servers es = some (s, os)) :
    Inv s ∧ Separated s :=
  Runs.run_invariant separated_step ⟨inv_start servers, separated_start servers⟩ h

/-- In every reachable state the records in use differ in ID and in digest, the sources of
each differ as values, and a record that is not in use has none but its own. A record that a
lookup could accept is therefore the one it returns. -/
theorem lookups_unambiguous (servers : List (UpstreamServerInfo E)) (es : List (Event E))
    (s : DnsServer E) (os : List (List (Sent E))) (h : run servers es = some (s, os)) :
    (s.records.Pairwise fun r x => r.inUse = true → x.inUse = true →
      r.newId ≠ x.newId ∧ r.hash ≠ x.hash) ∧
    (∀ r ∈ s.records, r.inUse = true → r.sources.Nodup) ∧
    (∀ r ∈ s.records, r.inUse = false → r.additional = []) ∧
    (∀ i r, s.records[i]? = some r → r.inUse = true →
      s.peerRequests.lookup r.newId r.hash = some (i, r)) ∧
    ∀ i r mask, s.records[i]? = some r → r.inUse = true →
      s.peerRequests.lookupByQuery r.hash (r.flags &&& mask) mask = some (i, r) := by
  obtain ⟨hinv, hs⟩ := separated_run h
  refine ⟨?_, ?_, ?_, ?_, ?_⟩
  · refine ((pairwise_inFlight hs.ids).and (pairwise_inFlight hinv.distinct)).imp ?_
    intro r x hboth huse hxuse
    exact ⟨hboth.1 huse hxuse, hboth.2 huse hxuse⟩
  · intro r hr huse
    exact hs.sources r (List.mem_filter.mpr ⟨hr, huse⟩)
  · intro r hr huse
    exact hinv.tidy r hr (by simpa [PeerRequestRecord.inUse] using huse)
  · intro i r hr huse
    refine find_unique hr (by simp [huse]) ?_
    intro j x hx haccept
    simp only [Bool.and_eq_true, beq_iff_eq] at haccept
    exact place_unique hs.ids hx hr haccept.1.1 huse haccept.1.2
  · intro i r mask hr huse
    refine find_unique hr (by simp [huse]) ?_
    intro j x hx haccept
    simp only [Bool.and_eq_true, beq_iff_eq] at haccept
    exact place_unique hinv.distinct hx hr haccept.1.1 huse haccept.2

/- Two clients ask the same question, the second while the first one waits. -/
def twoClients : List (Event Nat) :=
  [.resolve (sampleQuery 7) 1 true 5 [firstDraw] freshRecord,
    .resolve (sampleQuery 7) 2 true 6 [secondDraw] freshRecord]

theorem lookups_unambiguous_twoClients :
    ∃ s os, run sampleServers twoClients = some (s, os) ∧
      s.records.map (fun r => (r.inUse, r.sources.length)) = [(true, 2)] ∧
      ∀ r ∈ s.records, r.inUse = true → r.sources.Nodup := by
  have hrun : (run sampleServers twoClients).map
      (fun x => x.1.records.map fun r => (r.inUse, r.sources.length)) = some [(true, 2)] := by
    decide +kernel
  obtain ⟨⟨s, os⟩, hs, hsources⟩ := Option.map_eq_some_iff.mp hrun
  exact ⟨s, os, hs, hsources, (lookups_unambiguous sampleServers twoClients s os hs).2.1⟩

/-- In every reachable state the table has at most 150 records. When resolve calls GetNewId,
after GetNewRecord gave it a record, at most 149 IDs are in use; so some draw is admissible,
the loop ends as soon as it comes, and the ID returned is not zero and not in use. -/
theorem new_id_available (servers : List (UpstreamServerInfo E)) (es : List (Event E))
    (s : DnsServer E) (os : List (List (Sent E))) (h : run servers es = some (s, os)) :
    s.records.length ≤ maxFwdQueries ∧
    ∀ now fresh i r pr, s.peerRequests.getNewRecord now false fresh = (some (i, r), pr) →
      (inFlight pr.records).length ≤ maxFwdQueries - 1 ∧
      (∃ d, pr.usesId (distribute d) = false) ∧
      (∀ draws, (∃ d ∈ draws, pr.usesId (distribute d) = false) →
        ∃ id, pr.getNewId draws = some id) ∧
      ∀ draws id, pr.getNewId draws = some id →
        id ≠ 0 ∧ ∀ x ∈ pr.records, x.inUse = true → x.newId ≠ id := by
  have hs := inv_run h
  refine ⟨hs.length, ?_⟩
  intro now fresh i r pr hget
  obtain ⟨_, hnone, _⟩ | ⟨j, x, pr', hsome, hnew⟩ := getNewRecord_cases s.peerRequests now fresh
  · rw [hget] at hnone
    cases hnone
  · rw [hget] at hsome
    cases hsome
    refine ⟨?_, exists_unused_id (hnew.length hs.length), fun draws => getNewId_isSome, ?_⟩
    · exact Nat.le_pred_of_lt (inFlight_lt_of_newRecord hs hnew)
    · intro draws id hid
      obtain ⟨hzero, hunused⟩ := getNewId_admissible hid
      refine ⟨hzero, ?_⟩
      intro x hx huse heq
      exact not_mem_of_usesId hunused
        (List.mem_map.mpr ⟨x, List.mem_filter.mpr ⟨hx, huse⟩, heq⟩)

theorem new_id_available_twoClients :
    ∃ s os, run sampleServers twoClients = some (s, os) ∧ s.records.length = 1 ∧
      s.records.length ≤ maxFwdQueries ∧
      ∃ x pr, s.peerRequests.getNewRecord 7 false freshRecord = (some x, pr) ∧
        (inFlight pr.records).length ≤ maxFwdQueries - 1 := by
  have hrun : (run sampleServers twoClients).map (fun x => (x.1.records.length,
      (x.1.peerRequests.getNewRecord 7 false freshRecord).1.isSome)) = some (1, true) := by
    decide +kernel
  obtain ⟨⟨s, os⟩, hs, hone⟩ := Option.map_eq_some_iff.mp hrun
  simp only [Prod.mk.injEq] at hone
  obtain ⟨x, hx⟩ := Option.isSome_iff_exists.mp hone.2
  have hget : s.peerRequests.getNewRecord 7 false freshRecord =
      (some x, (s.peerRequests.getNewRecord 7 false freshRecord).2) := by rw [← hx]
  obtain ⟨hlen, hnext⟩ := new_id_available sampleServers twoClients s os hs
  exact ⟨s, os, hs, hone.1, hlen, x, _, hget, (hnext 7 freshRecord x.1 x.2 _ hget).1⟩

end DnsServer
end DnsWrapper.Dns
