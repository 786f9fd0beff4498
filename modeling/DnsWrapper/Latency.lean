import DnsWrapper.MovingAverage
import DnsWrapper.RequestFlags

/-! The average latency of each upstream server. A sample is the time of the reply less the
record's forwardTimestamp, which nothing sets; what the sample should be is noted beside the
server, from the events that forward a record to the reply that takes it away. -/
namespace DnsWrapper.Dns
open NetCommon Bookkeeping PeerRequests MovingAverage
variable {E : Type}

def UpstreamServerInfo.average (server : UpstreamServerInfo E) : Average :=
  ⟨server.stats.latency, server.stats.mma⟩

/- A reply that found its record: the number of the server it came from, its time and the
   record. -/
structure AcceptedReply (E : Type) where
  server : Nat
  now : Int
  record : PeerRequestRecord E

def AcceptedReply.sample (a : AcceptedReply E) : Int := a.now - a.record.forwardTimestamp

/- When each digest was forwarded last, and the delays of the replies accepted from each
   server, the last one first. -/
structure DelayLog where
  forwardedAt : List UInt8 → Int
  delays : Nat → List Int

def DelayLog.empty : DelayLog := ⟨fun _ => 0, fun _ => []⟩

def DelayLog.delay (log : DelayLog) (a : AcceptedReply E) : Int :=
  a.now - log.forwardedAt a.record.hash

def Event.time : Event E → Option Int
  | .resolve _ _ _ now _ _ => some now
  | .response _ _ now => some now
  | .redirect _ _ _ _ => none

namespace DnsServer

def averages (s : DnsServer E) : List Average := s.servers.map UpstreamServerInfo.average

theorem replyStats_average (packet : DnsPacket) (now forwardTimestamp : Int)
    (server : UpstreamServerInfo E) :
    UpstreamServerInfo.average
      { server with stats := replyStats packet now forwardTimestamp server.stats } =
      server.average.add 128 (now - forwardTimestamp) := rfl

theorem updateStats_averages {s : DnsServer E} {k : Nat} {f : ServerStats → ServerStats}
    {g : Average → Average}
    (h : ∀ server : UpstreamServerInfo E,
      UpstreamServerInfo.average { server with stats := f server.stats } = g server.average) :
    (s.updateStats k f).averages = s.averages.modify k g := by
  apply List.ext_getElem?
  intro i
  simp only [averages, updateStats, List.getElem?_map, List.getElem?_modify]
  cases s.servers[i]? with
  | none => rfl
  | some server => by_cases hk : k = i <;> simp [hk, h]

/- Every server that a reply was accepted from has a latency between 0 and the longest of the
   delays of its replies. -/
def WithinDelays (x : DnsServer E × DelayLog) : Prop :=
  ∀ (k : Nat) (server : UpstreamServerInfo E), x.1.servers[k]? = some server → x.2.delays k ≠ [] →
    0 ≤ server.stats.latency ∧ ∃ d ∈ x.2.delays k, server.stats.latency ≤ d

/- The average of each server is one over samples no longer than some delay of its own. -/
def Averaged (x : DnsServer E × DelayLog) : Prop :=
  ∀ k average, x.1.averages[k]? = some average →
    average.mean = 0 ∧ x.2.delays k = [] ∨ ∃ d ∈ x.2.delays k, average.Within 128 d

theorem averaged_start {servers : List (UpstreamServerInfo E)}
    (h : ∀ server ∈ servers, server.stats.latency = 0) :
    Averaged (start servers, DelayLog.empty) := by
  intro k average hk
  obtain ⟨server, hserver, rfl⟩ := List.mem_map.mp (List.mem_of_getElem? hk)
  exact .inl ⟨h server hserver, rfl⟩

/- A sample that is no longer than d, after samples no longer than some d'. -/
theorem add_within {average : Average} {x d : Int} {ds : List Int}
    (h : average.mean = 0 ∧ ds = [] ∨ ∃ d ∈ ds, average.Within 128 d) (hx : 0 ≤ x) (hd : x ≤ d) :
    (average.add 128 x).Within 128 d ∨ ∃ d' ∈ ds, (average.add 128 x).Within 128 d' := by
  obtain ⟨hzero, _⟩ | ⟨d', hd', hwithin⟩ := h
  · exact .inl (Average.within_of_zero (by decide) hzero hx hd)
  · obtain hle | hle := Int.le_total d d'
    · exact .inr ⟨d', hd', hwithin.add (by decide) hx (hd.trans hle)⟩
    · exact .inl ((hwithin.mono (by decide) hle).add (by decide) hx hd)

theorem withinDelays_of_averaged {x : DnsServer E × DelayLog} (h : Averaged x) :
    WithinDelays x := by
  intro k server hserver hne
  have hk : x.1.averages[k]? = some server.average := by
    rw [averages, List.getElem?_map, hserver, Option.map_some]
  obtain ⟨_, hnil⟩ | ⟨d, hd, hwithin⟩ := h k server.average hk
  · exact absurd hnil hne
  · exact ⟨hwithin.mean_nonneg (by decide), d, hd, hwithin.mean_le (by decide)⟩

/- Each digest waited for was forwarded by one of these events, at the time in the log. -/
def Forwarded (es : List (Event E)) (x : DnsServer E × DelayLog) : Prop :=
  ∀ r ∈ inFlight x.1.records, ∃ e ∈ es, e.time = some (x.2.forwardedAt r.hash)

theorem forwarded_start (es : List (Event E)) (servers : List (UpstreamServerInfo E)) :
    Forwarded es (start servers, DelayLog.empty) := by
  intro r hr
  cases hr

variable [DecidableEq E]

def acceptedReply (s : DnsServer E) (packet : DnsPacket) (endpoint : E) (now : Int) :
    Option (AcceptedReply E) :=
  match s.servers.findIdx? fun server => server.endpoint = endpoint with
  | none => none
  | some k =>
    if packet.validate .incomingResponse ≠ eNoError then none
    else (s.peerRequests.lookup packet.getId packet.hash).map fun x => ⟨k, now, x.2⟩

def accepted (s : DnsServer E) : Event E → Option (AcceptedReply E)
  | .response packet endpoint now => s.acceptedReply packet endpoint now
  | _ => none

/- The digest that the event forwards, with its time. -/
def forwards (s : DnsServer E) (e : Event E) : Option (List UInt8 × Int) :=
  match e with
  | .resolve packet _ _ now _ _ =>
    if (s.step e).any fun x => x.2.any fun d => d.kind = .forwarded then some (packet.hash, now)
    else none
  | _ => none

def noteDelay (s : DnsServer E) (e : Event E) (_ : DnsServer E) (log : DelayLog) : DelayLog where
  forwardedAt := (s.forwards e).elim log.forwardedAt fun x =>
    Function.update log.forwardedAt x.1 x.2
  delays := (s.accepted e).elim log.delays fun a =>
    Function.update log.delays a.server (log.delay a :: log.delays a.server)

theorem resolve_averages {s s' : DnsServer E} {packet : DnsPacket} {endpoint : E} {ipv4 : Bool}
    {now : Int} {draws : List (Fin 0xffff)} {fresh : PeerRequestRecord E} {sent : List (Sent E)}
    (h : s.resolve packet endpoint ipv4 now draws fresh = some (s', sent)) :
    s'.averages = s.averages := by
  obtain hsame | ⟨p, pr, i, r, rfl⟩ := resolve_servers h
  · rw [averages, averages, hsame]
  · rw [averages, forward, List.map_map]
    rfl

theorem response_averages (s : DnsServer E) (packet : DnsPacket) (endpoint : E) (now : Int) :
    (s.processUpstreamResponse packet endpoint now).1.averages =
      (s.acceptedReply packet endpoint now).elim s.averages fun a =>
        s.averages.modify a.server (·.add 128 a.sample) := by
  have hkeep : ∀ (k : Nat) (f : ServerStats → ServerStats),
      (∀ server : UpstreamServerInfo E, UpstreamServerInfo.average
        { server with stats := f server.stats } = id server.average) →
      (s.updateStats k f).averages = s.averages := by
    intro k f hf
    rw [updateStats_averages hf]
    exact List.modify_id _ _
  unfold processUpstreamResponse acceptedReply
  cases s.servers.findIdx? fun server => server.endpoint = endpoint with
  | none => rfl
  | some k =>
    by_cases hvalid : packet.validate .incomingResponse ≠ eNoError
    · simp only [if_pos hvalid]
      exact hkeep k _ fun _ => rfl
    · simp only [if_neg hvalid]
      cases s.peerRequests.lookup packet.getId packet.hash with
      | none => exact hkeep k _ fun _ => rfl
      | some x => exact updateStats_averages (replyStats_average packet now x.2.forwardTimestamp)

/-- Only an accepted reply changes an average, that of its own server by its sample. -/
theorem step_averages {s t : DnsServer E} {e : Event E} {sent : List (Sent E)}
    (h : s.step e = some (t, sent)) : t.averages =
      (s.accepted e).elim s.averages fun a => s.averages.modify a.server (·.add 128 a.sample) := by
  cases e with
  | resolve packet endpoint ipv4 now draws fresh => exact resolve_averages h
  | redirect packet endpoint ipv4 target =>
    cases h
    rfl
  | response packet endpoint now =>
    have ht : (s.processUpstreamResponse packet endpoint now).1 = t :=
      congrArg Prod.fst (Option.some.inj h)
    rw [← ht]
    exact response_averages s packet endpoint now

/-- If the event is a reply that finds its record, the forwardTimestamp in it gives a sample
between 0 and the longest delay of the server so far, that of this reply included. -/
def Timely (x : DnsServer E × DelayLog) (e : Event E) : Prop :=
  ∀ a, x.1.accepted e = some a →
    0 ≤ a.sample ∧ ∃ d ∈ x.2.delay a :: x.2.delays a.server, a.sample ≤ d

theorem noteDelay_forwardedAt (s t : DnsServer E) (e : Event E) (log : DelayLog) :
    (s.noteDelay e t log).forwardedAt = (s.forwards e).elim log.forwardedAt fun x =>
      Function.update log.forwardedAt x.1 x.2 := rfl

theorem noteDelay_delays (s t : DnsServer E) (e : Event E) (log : DelayLog) :
    (s.noteDelay e t log).delays = (s.accepted e).elim log.delays fun a =>
      Function.update log.delays a.server (log.delay a :: log.delays a.server) := rfl

theorem averaged_step (x : DnsServer E × DelayLog) (e : Event E) (y : DnsServer E × DelayLog)
    (sent : List (Sent E)) (hok : Timely x e) (hx : Averaged x)
    (h : Runs.noteStep step noteDelay x e = some (y, sent)) : Averaged y := by
  obtain ⟨hstep, hlog⟩ := Runs.noteStep_some h
  intro k average hk
  rw [step_averages hstep] at hk
  rw [hlog, noteDelay_delays]
  cases ha : x.1.accepted e with
  | none =>
    rw [ha] at hk
    exact hx k average hk
  | some a =>
    rw [ha, Option.elim_some, List.getElem?_modify] at hk
    rw [Option.elim_some]
    obtain ⟨old, hold, hnew⟩ := Option.map_eq_some_iff.mp hk
    by_cases hserver : a.server = k
    · rw [if_pos hserver] at hnew
      obtain ⟨hsample, d, hd, hle⟩ := hok a ha
      rw [← hserver, Function.update_self]
      refine .inr ?_
      rw [← hnew]
      obtain hwithin | ⟨d', hd', hwithin⟩ := add_within (hx k old hold) hsample hle
      · exact ⟨d, hd, hwithin⟩
      · rw [← hserver] at hd'
        exact ⟨d', List.mem_cons_of_mem _ hd', hwithin⟩
    · rw [if_neg hserver] at hnew
      rw [Function.update_of_ne (Ne.symm hserver), ← hnew]
      exact hx k old hold

theorem forwards_of_sent {s t : DnsServer E} {packet : DnsPacket} {endpoint : E} {ipv4 : Bool}
    {now : Int} {draws : List (Fin 0xffff)} {fresh : PeerRequestRecord E} {sent : List (Sent E)}
    (h : s.step (.resolve packet endpoint ipv4 now draws fresh) = some (t, sent)) {d : Sent E}
    (hd : d ∈ sent) (hkind : d.kind = .forwarded) :
    s.forwards (.resolve packet endpoint ipv4 now draws fresh) = some (packet.hash, now) := by
  have hany : (sent.any fun d => decide (d.kind = .forwarded)) = true :=
    List.any_eq_true.mpr ⟨d, hd, by simpa using hkind⟩
  rw [forwards, h, Option.any_some, hany]
  rfl

/-- A digest that comes into the table does so when it is forwarded. -/
theorem forwards_of_opened {s t : DnsServer E} {packet : DnsPacket} {endpoint : E} {ipv4 : Bool}
    {now : Int} {draws : List (Fin 0xffff)} {fresh : PeerRequestRecord E} {sent : List (Sent E)}
    (h : s.step (.resolve packet endpoint ipv4 now draws fresh) = some (t, sent))
    {r : PeerRequestRecord E} (hr : r ∈ inFlight t.records) (hnew : s.awaits r.hash = false) :
    s.forwards (.resolve packet endpoint ipv4 now draws fresh) = some (r.hash, now) := by
  have hold : r ∉ inFlight s.records := by
    intro hmem
    rw [awaits_iff.mpr ⟨r, hmem, rfl⟩] at hnew
    cases hnew
  have hresolved := resolve_resolved h
  have hhash := (hash_resolved hresolved hr).resolve_left (by rw [hnew]; nofun)
  have hawaits : ∀ {a x b}, s.Pending packet.hash a x b → False := by
    intro a x b hpending
    rw [hhash, awaits_iff.mpr ⟨x, hpending.mem, hpending.hash⟩] at hnew
    cases hnew
  rw [hhash]
  cases hresolved with
  | unconfigured h => exact absurd hr hold
  | waiting hp _ _ => exact (hawaits hp).elim
  | refused hin _ _ => exact absurd (hin.subset hr) hold
  | joined hp _ _ _ => exact (hawaits hp).elim
  | rearmed hp _ _ _ => exact (hawaits hp).elim
  | opened _ _ _ _ _ _ hsent =>
    cases hservers : s.servers with
    | nil =>
      have hnone : s.step (.resolve packet endpoint ipv4 now draws fresh) = some (s, []) :=
        if_pos (by rw [hservers]; rfl)
      rw [hnone] at h
      cases h
      exact absurd hr hold
    | cons server rest =>
      rw [hservers, List.map_cons] at hsent
      exact forwards_of_sent h (hsent ▸ List.mem_cons_self) rfl

theorem forwards_time {s : DnsServer E} {e : Event E} {digest : List UInt8} {now : Int}
    (h : s.forwards e = some (digest, now)) : e.time = some now := by
  cases e with
  | resolve packet endpoint ipv4 time draws fresh =>
    rw [forwards] at h
    split at h
    · cases h
      rfl
    · cases h
  | response packet endpoint time => cases h
  | redirect packet endpoint ipv4 target => cases h

theorem forwarded_step {es : List (Event E)} (x : DnsServer E × DelayLog) (e : Event E)
    (y : DnsServer E × DelayLog) (sent : List (Sent E)) (he : e ∈ es) (hx : Forwarded es x)
    (h : Runs.noteStep step noteDelay x e = some (y, sent)) : Forwarded es y := by
  obtain ⟨hstep, hlog⟩ := Runs.noteStep_some h
  intro r hr
  have hnow : ∀ now, x.1.forwards e = some (r.hash, now) →
      ∃ e ∈ es, e.time = some (y.2.forwardedAt r.hash) := by
    intro now hforwards
    refine ⟨e, he, ?_⟩
    rw [hlog, noteDelay_forwardedAt, hforwards, Option.elim_some, Function.update_self]
    exact forwards_time hforwards
  cases hbefore : x.1.awaits r.hash with
  | false =>
    obtain hold | ⟨packet, hrequest, _⟩ := hash_step hstep hr
    · rw [hbefore] at hold
      cases hold
    · cases e with
      | resolve packet endpoint ipv4 now draws fresh =>
        exact hnow now (forwards_of_opened hstep hr hbefore)
      | response packet endpoint now => cases hrequest
      | redirect packet endpoint ipv4 target => cases hrequest
  | true =>
    obtain ⟨r₀, hr₀, hhash⟩ := awaits_iff.mp hbefore
    cases hforwards : x.1.forwards e with
    | none =>
      rw [hlog, noteDelay_forwardedAt, hforwards, ← hhash]
      exact hx r₀ hr₀
    | some f =>
      by_cases hdigest : f.1 = r.hash
      · exact hnow f.2 (by rw [hforwards, ← hdigest])
      · rw [hlog, noteDelay_forwardedAt, hforwards, Option.elim_some,
          Function.update_of_ne (Ne.symm hdigest), ← hhash]
        exact hx r₀ hr₀

theorem accepted_mem {s : DnsServer E} {e : Event E} {a : AcceptedReply E}
    (h : s.accepted e = some a) : a.record ∈ inFlight s.records ∧ e.time = some a.now := by
  cases e with
  | resolve packet endpoint ipv4 now draws fresh => cases h
  | redirect packet endpoint ipv4 target => cases h
  | response packet endpoint now =>
    rw [accepted, acceptedReply] at h
    split at h
    · cases h
    · split at h
      · cases h
      · obtain ⟨x, hlookup, ha⟩ := Option.map_eq_some_iff.mp h
        cases ha
        obtain ⟨_, hget, haccept⟩ := find_some hlookup
        simp only [Bool.and_eq_true] at haccept
        exact ⟨List.mem_filter.mpr ⟨List.mem_of_getElem? hget, haccept.1.1⟩, rfl⟩

/- A run with the log beside the server. -/
def delayRun (servers : List (UpstreamServerInfo E)) (es : List (Event E)) :
    Option ((DnsServer E × DelayLog) × List (List (Sent E))) :=
  Runs.run (Runs.noteStep step noteDelay) (start servers, DelayLog.empty) es

theorem forwarded_run {servers : List (UpstreamServerInfo E)} {es : List (Event E)}
    {x : DnsServer E × DelayLog} {os : List (List (Sent E))}
    (hrun : delayRun servers es = some (x, os)) : Forwarded es x :=
  Runs.run_invariant_of forwarded_step (fun _ he => he) (forwarded_start es servers) hrun

/-- The condition excludes nothing but the defect: while the clock does not go back, a reply
fits whenever its record holds the time at which it was forwarded. -/
theorem timely_of_stamped {servers : List (UpstreamServerInfo E)} {es : List (Event E)}
    {x : DnsServer E × DelayLog} {os : List (List (Sent E))}
    (hrun : delayRun servers es = some (x, os)) {e : Event E}
    (hclock : ∀ e' ∈ es, ∀ t ∈ e'.time, ∀ u ∈ e.time, t ≤ u)
    (hstamp : ∀ a, x.1.accepted e = some a →
      a.record.forwardTimestamp = x.2.forwardedAt a.record.hash) : Timely x e := by
  intro a ha
  obtain ⟨hmem, hnow⟩ := accepted_mem ha
  obtain ⟨e', he', htime⟩ := forwarded_run hrun a.record hmem
  have hle := hclock e' he' _ htime a.now hnow
  have hsample : a.sample = x.2.delay a := by
    rw [AcceptedReply.sample, DelayLog.delay, hstamp a ha]
  rw [hsample]
  exact ⟨Int.sub_nonneg_of_le hle, _, List.mem_cons_self, Int.le_refl _⟩

/-- While a server's latency is 0 no other replies will do: the latency after the reply is
the sample itself. -/
theorem timely_iff_of_zero {x y : DnsServer E × DelayLog} {e : Event E} {a : AcceptedReply E}
    {average : Average} {sent : List (Sent E)} (ha : x.1.accepted e = some a)
    (haverage : x.1.averages[a.server]? = some average) (hzero : average.mean = 0)
    (h : Runs.noteStep step noteDelay x e = some (y, sent)) :
    Timely x e ↔ ∃ average', y.1.averages[a.server]? = some average' ∧ 0 ≤ average'.mean ∧
      ∃ d ∈ y.2.delays a.server, average'.mean ≤ d := by
  obtain ⟨hstep, hlog⟩ := Runs.noteStep_some h
  have hafter : y.1.averages[a.server]? = some ⟨a.sample, a.sample * 128⟩ := by
    rw [step_averages hstep, ha, Option.elim_some, List.getElem?_modify_eq, haverage,
      Option.map_eq_map, Option.map_some, Average.add_of_zero (by decide) hzero]
  have hdelays : y.2.delays a.server = x.2.delay a :: x.2.delays a.server := by
    rw [hlog, noteDelay_delays, ha, Option.elim_some, Function.update_self]
  rw [hafter, hdelays]
  constructor
  · intro htimely
    exact ⟨_, rfl, htimely a ha⟩
  · rintro ⟨average', hsome, hwithin⟩ b hb
    rw [ha] at hb
    cases hb
    cases hsome
    exact hwithin

/-- The latencies of servers that start at 0, in every run whose accepted replies all find a
record with a forwardTimestamp that fits. -/
theorem latency_withinDelays {servers : List (UpstreamServerInfo E)}
    (hservers : ∀ server ∈ servers, server.stats.latency = 0) {es : List (Event E)}
    (hok : Runs.Admits (Runs.noteStep step noteDelay) Timely (start servers, DelayLog.empty) es)
    {x : DnsServer E × DelayLog} {os : List (List (Sent E))}
    (hrun : delayRun servers es = some (x, os)) : WithinDelays x :=
  withinDelays_of_averaged
    (Runs.run_invariant_admitted averaged_step hok (averaged_start hservers) hrun)

instance (x : DnsServer E × DelayLog) (e : Event E) : Decidable (Timely x e) :=
  match h : x.1.accepted e with
  | none => .isTrue (by rw [Timely, h]; nofun)
  | some a => decidable_of_iff
      (0 ≤ a.sample ∧ ∃ d ∈ x.2.delay a :: x.2.delays a.server, a.sample ≤ d)
      (by rw [Timely, h]; simp only [Option.some.injEq, forall_eq'])

/- A query is forwarded at 1000 and answered one second later; the memory of its record held
   the given time. -/
def promptQuery (forwardTimestamp : Int) : Event Nat :=
  .resolve (sampleQuery 7) 1 true 1000 [firstDraw] { freshRecord with forwardTimestamp }

def promptReply : Event Nat := .response ((sampleQuery 1).setAsQueryResponse) 0 1001

theorem latency_withinDelays_promptReply :
    ∃ x os, delayRun sampleServers [promptQuery 1000, promptReply] = some (x, os) ∧
      x.2.delays 0 = [1] ∧ WithinDelays x := by
  have hall : (Runs.noteStep step noteDelay (start sampleServers, DelayLog.empty)
      (promptQuery 1000)).any (fun y => decide (Timely y.1 promptReply) &&
        (Runs.noteStep step noteDelay y.1 promptReply).any fun z => z.1.2.delays 0 == [1]) = true := by
    decide +kernel
  obtain ⟨⟨y, sent⟩, hquery, hall⟩ := (Option.any_eq_true _ _).mp hall
  rw [Bool.and_eq_true, decide_eq_true_eq] at hall
  obtain ⟨⟨x, relayed⟩, hreply, hdelays⟩ := (Option.any_eq_true _ _).mp hall.2
  have hok : Runs.Admits (Runs.noteStep step noteDelay) Timely
      (start sampleServers, DelayLog.empty) [promptQuery 1000, promptReply] := by
    refine ⟨nofun, ?_⟩
    intro y' sent' hquery'
    rw [hquery] at hquery'
    cases hquery'
    exact ⟨hall.1, fun _ _ _ => trivial⟩
  have hrun : delayRun sampleServers [promptQuery 1000, promptReply] =
      some (x, [sent, relayed]) := by
    simp [delayRun, Runs.run, hquery, hreply]
  exact ⟨x, _, hrun, beq_iff_eq.mp hdelays, latency_withinDelays (by decide) hok hrun⟩

/-- With servers that start from zero and a clock that does not go back: a delay of one second,
and a latency of 1001 seconds. -/
theorem latency_counterexample :
    (∀ server ∈ sampleServers, server.stats.latency = 0) ∧
      ([promptQuery 0, promptReply].filterMap Event.time).Pairwise (· ≤ ·) ∧
      ∃ x os, delayRun sampleServers [promptQuery 0, promptReply] = some (x, os) ∧
        x.2.delays 0 = [1] ∧ x.1.servers.map (fun server => server.stats.latency) = [1001] ∧
        ¬ WithinDelays x := by
  have hrun : (delayRun sampleServers [promptQuery 0, promptReply]).map (fun x =>
      (x.1.2.delays 0, x.1.1.servers.map fun server => server.stats.latency)) =
        some ([1], [1001]) := by
    decide +kernel
  obtain ⟨⟨x, os⟩, hx, hvalues⟩ := Option.map_eq_some_iff.mp hrun
  obtain ⟨hdelays, hlatency⟩ := Prod.mk.inj hvalues
  refine ⟨by decide, by decide, x, os, hx, hdelays, hlatency, ?_⟩
  intro hwithin
  obtain ⟨server, hservers, hserver⟩ := List.map_eq_singleton_iff.mp hlatency
  obtain ⟨_, d, hd, hle⟩ := hwithin 0 server (by rw [hservers]; rfl) (by rw [hdelays]; nofun)
  rw [hdelays, List.mem_singleton] at hd
  rw [hd, hserver] at hle
  exact absurd hle (by decide)

end DnsServer
end DnsWrapper.Dns
