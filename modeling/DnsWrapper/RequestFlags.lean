import DnsWrapper.ServerSteps

/-! Which requests share a record. LookupByQuery is asked to compare the CD and AD bits and the
presence of an EDNS header, but resolve neither reads them from the packet nor keeps them in
the record: a request joins whatever record waits for its digest. -/
namespace DnsWrapper.Dns
open NetCommon Bookkeeping PeerRequests
open scoped List
variable {E : Type}

/- PEER_CHECKING_DISABLED, PEER_AD_QUESTION and PEER_HAS_PSUEDO_HEADER of two packets. -/
structure SameFlags (p q : DnsPacket) : Prop where
  checkingDisabled : p.header.getCheckingDisabled = q.header.getCheckingDisabled
  adQuestion : p.header.getAuthenticData = q.header.getAuthenticData
  psuedoHeader : p.hasPsuedoHeader = q.hasPsuedoHeader

def Event.request : Event E → Option DnsPacket
  | .resolve packet _ _ _ _ _ => some packet
  | _ => none

namespace DnsServer

/- Some record in use waits for the digest. -/
def awaits (s : DnsServer E) (digest : List UInt8) : Bool :=
  (inFlight s.records).any fun r => r.hash == digest

theorem awaits_iff {s : DnsServer E} {digest : List UInt8} :
    s.awaits digest = true ↔ ∃ r ∈ inFlight s.records, r.hash = digest := by
  simp [awaits]

/- The request that created the record in use, noted beside the server for each digest. -/
def note (s : DnsServer E) (e : Event E) (s' : DnsServer E)
    (creator : List UInt8 → Option DnsPacket) : List UInt8 → Option DnsPacket :=
  match e.request with
  | none => creator
  | some packet =>
    if s.awaits packet.hash = false ∧ s'.awaits packet.hash = true then
      Function.update creator packet.hash (some packet)
    else creator

/- resolve takes the request as one for a record that is in use already. -/
def Merges (s : DnsServer E) (packet : DnsPacket) : Prop :=
  s.servers ≠ [] ∧ (s.peerRequests.lookupByQuery packet.hash fwdFlags peerFlagMask).isSome = true

/- Nothing is noted for a digest that is waited for already. -/
theorem note_awaited {s s' : DnsServer E} {digest : List UInt8} (h : s.awaits digest = true)
    (e : Event E) (creator : List UInt8 → Option DnsPacket) :
    s.note e s' creator digest = creator digest := by
  unfold note
  cases e.request with
  | none => rfl
  | some packet =>
    by_cases hopens : s.awaits packet.hash = false ∧ s'.awaits packet.hash = true
    · have hne : digest ≠ packet.hash := by
        rintro rfl
        rw [h] at hopens
        cases hopens.1
      simp only [hopens, and_self, if_true]
      exact Function.update_of_ne hne _ _
    · simp only [hopens, if_false]

theorem note_opened {s s' : DnsServer E} {e : Event E} {packet : DnsPacket}
    (he : e.request = some packet) (h : s.awaits packet.hash = false)
    (h' : s'.awaits packet.hash = true) (creator : List UInt8 → Option DnsPacket) :
    s.note e s' creator packet.hash = some packet := by
  simp only [note, he, h, h', and_self, if_true, Function.update_self]

theorem mem_inFlight_middle {a b : List (PeerRequestRecord E)} {x r : PeerRequestRecord E}
    (h : r ∈ inFlight (a ++ x :: b)) : r = x ∨ r ∈ inFlight (a ++ b) := by
  obtain ⟨hmem, huse⟩ := List.mem_filter.mp h
  rw [List.mem_append, List.mem_cons] at hmem
  obtain ha | rfl | hb := hmem
  · exact .inr (List.mem_filter.mpr ⟨List.mem_append_left _ ha, huse⟩)
  · exact .inl rfl
  · exact .inr (List.mem_filter.mpr ⟨List.mem_append_right _ hb, huse⟩)

/- A record in use waits for a digest that was waited for before, or for that of the request. -/
theorem hash_resolved {s s' : DnsServer E} {packet : DnsPacket} {endpoint : E} {ipv4 : Bool}
    {sent : List (Sent E)} (h : Resolved s packet endpoint ipv4 s' sent)
    {r : PeerRequestRecord E} (hr : r ∈ inFlight s'.records) :
    s.awaits r.hash = true ∨ r.hash = packet.hash := by
  cases h with
  | unconfigured h => exact .inl (awaits_iff.mpr ⟨r, hr, rfl⟩)
  | waiting h ht hc => exact .inl (awaits_iff.mpr ⟨r, hr, rfl⟩)
  | refused hin htidy hlen => exact .inl (awaits_iff.mpr ⟨r, hin.subset hr, rfl⟩)
  | @joined a x b _ h ht hc hrecords =>
    rw [hrecords] at hr
    obtain rfl | hr := mem_inFlight_middle hr
    · exact .inr h.hash
    · have hold := (filter_append_sublist a b x).subset hr
      exact .inl (awaits_iff.mpr ⟨r, h.split ▸ hold, rfl⟩)
  | @rearmed a x b _ _ h ht hrecords hsent =>
    rw [hrecords] at hr
    obtain rfl | hr := mem_inFlight_middle hr
    · exact .inr h.hash
    · have hold := (filter_append_sublist a b x).subset hr
      exact .inl (awaits_iff.mpr ⟨r, h.split ▸ hold, rfl⟩)
  | opened hnone hnew hpr hin hid hrecords hsent =>
    rw [hrecords] at hr
    obtain rfl | hr := mem_inFlight_middle hr
    · exact .inr rfl
    · exact .inl (awaits_iff.mpr ⟨r, hin.subset hr, rfl⟩)

theorem hash_responded {s s' : DnsServer E} {packet : DnsPacket} {sent : List (Sent E)}
    (h : Responded s packet s' sent) {r : PeerRequestRecord E} (hr : r ∈ inFlight s'.records) :
    s.awaits r.hash = true := by
  cases h with
  | dropped h => exact awaits_iff.mpr ⟨r, h ▸ hr, rfl⟩
  | @relayed a x b _ hsplit huse hid hhash hrecords =>
    rw [hrecords, inFlight, filter_append_free rfl] at hr
    have hold := (filter_append_sublist a b x).subset hr
    exact awaits_iff.mpr ⟨r, hsplit ▸ hold, rfl⟩

/- For each record in use the request that created it is noted, with the digest it waits for. -/
structure Noted (ok : DnsPacket → Prop) (x : DnsServer E × (List UInt8 → Option DnsPacket)) :
    Prop where
  inv : Inv x.1
  creator : ∀ r ∈ inFlight x.1.records, ∃ p, x.2 r.hash = some p ∧ ok p ∧ p.hash = r.hash

theorem noted_start (ok : DnsPacket → Prop) (servers : List (UpstreamServerInfo E)) :
    Noted ok (start servers, fun _ => none) :=
  ⟨inv_start servers, nofun⟩

theorem merges_iff {s : DnsServer E} (hs : Inv s) (packet : DnsPacket) :
    s.Merges packet ↔ s.servers ≠ [] ∧ s.awaits packet.hash = true := by
  refine and_congr_right fun _ => ⟨fun h => ?_, fun h => ?_⟩
  · obtain ⟨⟨i, r⟩, hfound⟩ := Option.isSome_iff_exists.mp h
    obtain ⟨_, _, hpending, _⟩ := pending_of_lookup hfound
    exact awaits_iff.mpr ⟨r, hpending.mem, hpending.hash⟩
  · by_contra hnone
    rw [Option.not_isSome_iff_eq_none] at hnone
    obtain ⟨r, hr, hhash⟩ := awaits_iff.mp h
    exact not_mem_of_lookup hs hnone (List.mem_map.mpr ⟨r, hr, hhash⟩)

variable [DecidableEq E]

/-- Only a request brings its digest into the table. -/
theorem hash_step {s s' : DnsServer E} {e : Event E} {sent : List (Sent E)}
    (h : s.step e = some (s', sent)) {r : PeerRequestRecord E} (hr : r ∈ inFlight s'.records) :
    s.awaits r.hash = true ∨ ∃ packet, e.request = some packet ∧ r.hash = packet.hash := by
  cases e with
  | resolve packet endpoint ipv4 now draws fresh =>
    obtain hold | hnew := hash_resolved (resolve_resolved h) hr
    · exact .inl hold
    · exact .inr ⟨packet, rfl, hnew⟩
  | response packet endpoint now =>
    exact .inl (hash_responded (response_responded (Option.some.inj h)) hr)
  | redirect packet endpoint ipv4 target =>
    cases h
    exact .inl (awaits_iff.mpr ⟨r, hr, rfl⟩)

theorem noted_step {ok : DnsPacket → Prop} (x : DnsServer E × (List UInt8 → Option DnsPacket))
    (e : Event E) (y : DnsServer E × (List UInt8 → Option DnsPacket)) (sent : List (Sent E))
    (hok : ∀ p ∈ e.request, ok p) (hx : Noted ok x)
    (h : Runs.noteStep step note x e = some (y, sent)) : Noted ok y := by
  obtain ⟨hstep, hnote⟩ := Runs.noteStep_some h
  refine ⟨inv_step _ _ _ _ hx.inv hstep, ?_⟩
  intro r hr
  rw [hnote]
  cases hbefore : x.1.awaits r.hash with
  | true =>
    obtain ⟨r₀, hr₀, hhash⟩ := awaits_iff.mp hbefore
    rw [note_awaited hbefore, ← hhash]
    exact hx.creator r₀ hr₀
  | false =>
    obtain hold | ⟨packet, hrequest, hhash⟩ := hash_step hstep hr
    · rw [hbefore] at hold
      cases hold
    · have hafter : y.1.awaits r.hash = true := awaits_iff.mpr ⟨r, hr, rfl⟩
      rw [hhash] at hbefore hafter ⊢
      exact ⟨packet, note_opened hrequest hbefore hafter x.2, hok packet (by rw [hrequest]; rfl), rfl⟩

def notedRun (servers : List (UpstreamServerInfo E)) (es : List (Event E)) :
    Option ((DnsServer E × (List UInt8 → Option DnsPacket)) × List (List (Sent E))) :=
  Runs.run (Runs.noteStep step note) (start servers, fun _ => none) es

theorem noted_run {ok : DnsPacket → Prop} {servers : List (UpstreamServerInfo E)}
    {es : List (Event E)} {x : DnsServer E × (List UInt8 → Option DnsPacket)}
    {os : List (List (Sent E))} (hok : ∀ e ∈ es, ∀ p ∈ e.request, ok p)
    (h : notedRun servers es = some (x, os)) : Noted ok x :=
  Runs.run_invariant_of noted_step hok (noted_start ok servers) h

/- The request that brought the digest into the table, and it has been there since. -/
def CreatedBy (servers : List (UpstreamServerInfo E)) (es : List (Event E)) (digest : List UInt8)
    (p : DnsPacket) : Prop :=
  ∃ s creator os, notedRun servers es = some ((s, creator), os) ∧ creator digest = some p

/- The first request of a server comes into the table. -/
theorem first_request {servers : List (UpstreamServerInfo E)} (h : servers ≠ [])
    (packet : DnsPacket) (endpoint : E) :
    ∃ e : Event E, e.request = some packet ∧ ∃ s sent, (start servers).step e = some (s, sent) ∧
      s.servers ≠ [] ∧ s.awaits packet.hash = true := by
  let fresh : PeerRequestRecord E := ⟨⟨endpoint, true, 0⟩, [], none, 0, 0, 0, 0, [], false⟩
  let r : PeerRequestRecord E :=
    ⟨⟨endpoint, true, packet.getId⟩, [], none, 1, 0, 0, 0, packet.hash, false⟩
  have hempty : servers.isEmpty = false := by simpa using h
  have hstep : (start servers).step (.resolve packet endpoint true 0 [0] fresh) =
      some ((start servers).forward (packet.setId 1) ⟨[fresh], [], 0⟩ 0 r) := by
    simp [step, resolve, start, hempty, PeerRequests.empty, lookupByQuery, find, getNewRecord, sweep,
      Sweep.loop, takeRecord, maxFwdQueries, getNewId, usesId, PeerRequestRecord.inUse,
      PeerRequestRecord.freed, fresh]
    rfl
  refine ⟨_, rfl, _, _, hstep, ?_, ?_⟩
  · simpa [forward, start] using h
  · simp [awaits, inFlight, records, setRecord, PeerRequestRecord.inUse, r]

theorem run_one {servers : List (UpstreamServerInfo E)} {e : Event E} {s : DnsServer E}
    {sent : List (Sent E)} (h : (start servers).step e = some (s, sent)) :
    run servers [e] = some (s, [sent]) := by
  simp [run, Runs.run, h]

/-- Whatever requests a server gets, each one that resolve takes as belonging to a record in use
carries the flags of the request that created the record, in all runs, exactly when those of
the requests that have one digest carry the same flags. -/
theorem merged_flags_iff (servers : List (UpstreamServerInfo E)) (ok : DnsPacket → Prop) :
    (∀ es s os, (∀ e ∈ es, ∀ p ∈ e.request, ok p) → run servers es = some (s, os) →
      ∀ packet, ok packet → s.Merges packet →
        ∃ p, CreatedBy servers es packet.hash p ∧ SameFlags packet p) ↔
    (servers ≠ [] → ∀ p q, ok p → ok q → p.hash = q.hash → SameFlags p q) := by
  constructor
  · intro h hservers p q hp hq hhash
    obtain ⟨server, _⟩ := List.exists_mem_of_ne_nil servers hservers
    obtain ⟨e, hrequest, s, sent, hstep, hs, hawaits⟩ := first_request hservers q server.endpoint
    have hrun := run_one hstep
    have hok : ∀ e' ∈ [e], ∀ p ∈ e'.request, ok p := by
      simpa [hrequest] using hq
    have hmerges : s.Merges p := (merges_iff (inv_run hrun) p).mpr ⟨hs, by rw [hhash]; exact hawaits⟩
    obtain ⟨c, ⟨t, creator, os, hnoted, hc⟩, hsame⟩ := h [e] s _ hok hrun p hp hmerges
    have hfirst : notedRun servers [e] =
        some ((s, (start servers).note e s fun _ => none), [sent]) := by
      simp [notedRun, Runs.run, Runs.noteStep, hstep]
    rw [hfirst] at hnoted
    cases hnoted
    rw [hhash, note_opened hrequest rfl hawaits] at hc
    cases hc
    exact hsame
  · intro h es s os hok hrun packet hpacket hmerges
    obtain ⟨creator, hnoted⟩ := Runs.run_note note hrun fun _ => none
    have hx := noted_run hok hnoted
    obtain ⟨r, hr, hhash⟩ := awaits_iff.mp ((merges_iff hx.inv packet).mp hmerges).2
    obtain ⟨p, hp, hokp, hph⟩ := hx.creator r hr
    rw [hhash] at hp hph
    refine ⟨p, ⟨s, creator, os, hnoted, hp⟩, h ?_ packet p hpacket hokp hph.symm⟩
    rintro rfl
    exact hmerges.1 (List.map_eq_nil_iff.mp (endpoints_run hrun))

/- The query of one client, and the same question of a client that disables checking. -/
def plainQuery : List (Event Nat) := [.resolve (sampleQuery 7) 1 true 100 [firstDraw] freshRecord]

def checkingQuery : DnsPacket := { sampleQuery 8 with header := ⟨8, 1, 0x10, 1, 0, 0, 0⟩ }

/-- The second client gets the answer to the request of the first. -/
theorem checking_disabled_merged :
    ∃ s os, run sampleServers plainQuery = some (s, os) ∧
      checkingQuery.validate .incomingRequest = eNoError ∧ s.Merges checkingQuery ∧
      CreatedBy sampleServers plainQuery checkingQuery.hash (sampleQuery 7) ∧
      ¬ SameFlags checkingQuery (sampleQuery 7) := by
  have hdefined : (run sampleServers plainQuery).isSome = true := by decide +kernel
  have hnote : (notedRun sampleServers plainQuery).map (fun x => (x.1.1.servers.length,
      (x.1.1.peerRequests.lookupByQuery checkingQuery.hash fwdFlags peerFlagMask).isSome,
      x.1.2 checkingQuery.hash)) = some (1, true, some (sampleQuery 7)) := by
    decide +kernel
  obtain ⟨⟨s, os⟩, hrun⟩ := Option.isSome_iff_exists.mp hdefined
  obtain ⟨creator, hnoted⟩ := Runs.run_note note hrun fun _ => none
  have hnoted' : notedRun sampleServers plainQuery = some ((s, creator), os) := hnoted
  rw [hnoted', Option.map_some, Option.some.injEq, Prod.mk.injEq, Prod.mk.injEq] at hnote
  obtain ⟨hservers, hfound, hcreator⟩ := hnote
  have hne : s.servers ≠ [] := by
    intro hnil
    rw [hnil] at hservers
    cases hservers
  refine ⟨s, os, hrun, by decide, ⟨hne, hfound⟩, ⟨s, creator, os, hnoted', hcreator⟩, ?_⟩
  intro h
  exact absurd h.checkingDisabled (by decide)

end DnsServer
end DnsWrapper.Dns
