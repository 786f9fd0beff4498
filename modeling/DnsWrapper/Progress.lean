import DnsWrapper.ClientAnswers
import DnsWrapper.RawBounds
import DnsWrapper.ReadSlack
import DnsWrapper.Tracking

/-! The daemon is never stuck. A frame is read inside the buffer of its socket, whatever it is; a
datagram with two bytes of buffer behind it as well, and the table of requests is small enough
for the search of an unused ID to end. -/
namespace DnsWrapper.ByteReader
variable {ε α β : Type}

/-- The reader ends on every array, from every cursor. -/
def Finishes (r : Reader ε α) : Prop := ∀ buf n p, r.run buf n p ≠ .error .outOfFuel

theorem finishes_pure (a : α) : Finishes (pure a : Reader ε α) :=
  fun _ _ _ h => by cases h

theorem finishes_fail (e : ε) : Finishes (fail e : Reader ε α) :=
  fun _ _ _ h => by cases h

theorem finishes_here : Finishes (here : Reader ε Nat) := fun _ _ _ h => by cases h

theorem finishes_nominal : Finishes (nominal : Reader ε Nat) := fun _ _ _ h => by cases h

theorem finishes_skip (k : Nat) : Finishes (skip k : Reader ε Unit) := fun _ _ _ h => by cases h

theorem finishes_peek (i : Nat) : Finishes (peek i : Reader ε UInt8) := by
  intro buf n p
  by_cases hp : p + i < buf.length
  · rw [peek_ok n hp]
    exact fun h => by cases h
  · rw [peek_outOfRange n (by omega)]
    exact fun h => by cases h

theorem finishes_bind {r : Reader ε α} {f : α → Reader ε β} (hr : Finishes r)
    (hf : ∀ a, Finishes (f a)) : Finishes (r >>= f) := by
  intro buf n p
  cases he : r.run buf n p with
  | error e =>
    rw [bind_of_error he]
    intro h
    cases h
    exact hr buf n p he
  | ok v =>
    rw [bind_of_ok he]
    exact hf v.1 buf n v.2

theorem finishes_ite {c : Prop} [Decidable c] {r s : Reader ε α} (hr : Finishes r)
    (hs : Finishes s) : Finishes (if c then r else s) := by
  split
  · exact hr
  · exact hs

theorem finishes_byte : Finishes (byte : Reader ε UInt8) :=
  finishes_bind (finishes_peek 0) fun _ => finishes_bind (finishes_skip 1) fun _ => finishes_pure _

end DnsWrapper.ByteReader

namespace DnsWrapper.Net
open ByteReader NetCommon Dns InPacket

section Finishes

theorem finishes_validate (k : Nat) : Finishes (validate k) :=
  finishes_bind finishes_here fun _ => finishes_bind finishes_nominal fun _ =>
    finishes_ite (finishes_fail _) (finishes_pure _)

theorem finishes_vreadU8 : Finishes vreadU8 :=
  finishes_bind (finishes_validate 1) fun _ => finishes_byte

theorem finishes_vreadU16 : Finishes vreadU16 :=
  finishes_bind (finishes_validate 2) fun _ => finishes_bind (finishes_peek 0) fun _ =>
    finishes_bind (finishes_peek 1) fun _ => finishes_bind (finishes_skip 2) fun _ =>
      finishes_pure _

theorem finishes_vreadU32 : Finishes vreadU32 :=
  finishes_bind (finishes_validate 2) fun _ => finishes_bind (finishes_peek 0) fun _ =>
    finishes_bind (finishes_peek 1) fun _ => finishes_bind (finishes_peek 2) fun _ =>
    finishes_bind (finishes_peek 3) fun _ => finishes_bind (finishes_skip 4) fun _ =>
      finishes_pure _

theorem finishes_readEth : Finishes readEth :=
  finishes_bind finishes_byte fun _ => finishes_bind finishes_byte fun _ =>
    finishes_bind finishes_byte fun _ => finishes_bind finishes_byte fun _ =>
    finishes_bind finishes_byte fun _ => finishes_bind finishes_byte fun _ => finishes_pure _

theorem finishes_readVlan (k : Nat) (protocol : UInt16) : Finishes (readVlan k protocol) := by
  induction k generalizing protocol with
  | zero => exact finishes_pure _
  | succ k ih =>
    exact finishes_ite (finishes_bind (finishes_validate _) fun _ =>
      finishes_bind (finishes_skip 2) fun _ => finishes_bind finishes_vreadU16 fun protocol =>
        ih protocol) (finishes_pure _)

theorem finishes_readWord (order : ByteOrder) (a : IpAddress) (i : Nat) :
    Finishes (readWord order a i) :=
  finishes_bind finishes_vreadU32 fun _ => finishes_pure _

theorem finishes_readWords (order : ByteOrder) (i k : Nat) (a : IpAddress) :
    Finishes (readWords order i k a) := by
  induction k generalizing i a with
  | zero => exact finishes_pure _
  | succ k ih => exact finishes_bind (finishes_readWord order a i) fun a => ih (i + 1) a

theorem finishes_readIpv4 (order : ByteOrder) (src dst : IpAddress) :
    Finishes (readIpv4 order src dst) :=
  finishes_bind (finishes_validate _) fun _ => finishes_bind (finishes_peek 0) fun _ =>
    finishes_ite (finishes_fail _) (finishes_bind (finishes_validate _) fun _ =>
      finishes_bind (finishes_skip 9) fun _ => finishes_bind finishes_vreadU8 fun _ =>
      finishes_bind (finishes_skip 2) fun _ => finishes_bind (finishes_readWord order src 0) fun _ =>
      finishes_bind (finishes_readWord order dst 0) fun _ =>
        finishes_bind (finishes_skip _) fun _ => finishes_pure _)

theorem finishes_readIpv6 (order : ByteOrder) (src dst : IpAddress) :
    Finishes (readIpv6 order src dst) :=
  finishes_bind (finishes_validate _) fun _ => finishes_bind (finishes_skip 6) fun _ =>
    finishes_bind finishes_vreadU8 fun _ => finishes_bind (finishes_skip 1) fun _ =>
    finishes_bind (finishes_readWords order 0 4 src) fun _ =>
    finishes_bind (finishes_readWords order 0 4 dst) fun _ => finishes_pure _

theorem finishes_readIp (order : ByteOrder) (src dst : IpAddress) (protocol : UInt16) :
    Finishes (readIp order src dst protocol) :=
  finishes_ite (finishes_bind (finishes_readIpv4 order src dst) fun _ => finishes_pure _)
    (finishes_ite (finishes_bind (finishes_readIpv6 order src dst) fun _ => finishes_pure _)
      (finishes_fail _))

theorem finishes_readUdp (protocol : UInt8) : Finishes (readUdp protocol) :=
  finishes_ite (finishes_bind (finishes_validate _) fun _ => finishes_bind finishes_vreadU16 fun _ =>
    finishes_bind finishes_vreadU16 fun _ => finishes_bind finishes_vreadU16 fun _ =>
    finishes_bind (finishes_skip 2) fun _ => finishes_pure _) (finishes_fail _)

theorem finishes_read (order : ByteOrder) (src dst : IpAddress) : Finishes (read order src dst) :=
  finishes_bind (finishes_validate _) fun _ => finishes_bind finishes_readEth fun _ =>
    finishes_bind finishes_readEth fun _ =>
    finishes_bind (finishes_bind finishes_vreadU16 fun _ => finishes_readVlan _ _) fun _ =>
    finishes_bind (finishes_readIp order src dst _) fun _ =>
    finishes_bind (finishes_readUdp _) fun _ => finishes_pure _

end Finishes

end DnsWrapper.Net

namespace DnsWrapper.Dns
open ByteReader NetCommon Net Bookkeeping Shm
open Runs (run Admits)

namespace RawServer
variable (order : ByteOrder) (dnsPort : UInt16)

theorem finishes_readQuery (src dst : IpAddress) : Finishes (readQuery order dnsPort src dst) :=
  finishes_bind (finishes_read order src dst) fun _ => finishes_ite (finishes_pure _)
    (finishes_bind finishes_here fun _ => finishes_bind finishes_nominal fun _ =>
      finishes_ite (finishes_pure _) (finishes_bind (finishes_peek 2) fun _ =>
        finishes_ite (finishes_pure _) (finishes_pure _)))

theorem udpStart_le {d : List UInt8} {u : Nat} (h : udpStart d = some u) : u ≤ 22 + 60 := by
  have htags : tagCount d ≤ 2 := by
    rw [tagCount]
    split_ifs <;> decide
  have hstart : ipStart d ≤ 22 := by
    rw [ipStart, ethHdrSize, vlanHdrSize]
    omega
  rw [udpStart] at h
  split_ifs at h with hv4
  · cases h
    have hsize : ((d.getD (ipStart d) 0 &&& 0x0f) * 4).toNat ≤ 60 := by
      have hlow : (d.getD (ipStart d) 0 &&& 0x0f).toNat ≤ 15 := by
        rw [UInt8.toNat_and]
        exact Nat.and_le_right
      rw [UInt8.toNat_mul]
      exact (Nat.mod_le _ _).trans (Nat.mul_le_mul_right 4 hlow)
    omega
  · cases h
    rw [ipv6HdrSize]
    omega

/-- A byte behind the frame is enough, and only frames with a payload of two bytes need it. -/
theorem readQuery_inside (src dst : IpAddress) (d stale : List UInt8)
    (h : TwoBytePayload d dnsPort → stale ≠ []) :
    (readQuery order dnsPort src dst).run (d ++ stale) d.length 0 ≠ .error .outOfRange := by
  by_cases htwo : TwoBytePayload d dnsPort
  · have hpos := List.length_pos_of_ne_nil (h htwo)
    cases hread : (InPacket.read order src dst).run d d.length 0 with
    | error e =>
      have herr : (readQuery order dnsPort src dst).run d d.length 0 = .error e :=
        bind_of_error hread
      rw [(readQuery_outOfRange_iff order dnsPort src dst d).mpr htwo] at herr
      cases herr
      exact absurd hread (safe_read order src dst d 0 fun hlt => absurd hlt (Nat.lt_irrefl 0))
    | ok v =>
      obtain ⟨⟨ipacket, udp⟩, q⟩ := v
      have hsame := stable_read order src dst d stale d.length 0 (by simp [hread])
      rw [hread] at hsame
      rw [readQuery, bind_of_ok hsame]
      by_cases hport : ipacket.destinationPort = dnsPort
      · simp only [hport, ne_eq, not_true_eq_false, ↓reduceIte, bind_apply, here, nominal]
        by_cases hshort : q + 2 > d.length
        · rw [if_pos hshort]
          exact fun h => by cases h
        · rw [if_neg hshort, bind_of_ok (peek_ok d.length (by rw [List.length_append]; omega))]
          split_ifs <;> exact fun h => by cases h
      · simp only [ne_eq, hport, not_false_eq_true, ↓reduceIte]
        exact fun h => by cases h
  · have hin := (readQuery_outOfRange_iff order dnsPort src dst d).not.mpr htwo
    rw [stable_readQuery order dnsPort src dst d stale _ _ hin]
    exact hin

variable {order dnsPort}

/- A frame is undefined at no buffer of the full size. -/
theorem receive_defined {s : RawServer} (hs : ∀ k, (s.recvBuffers k).length = packetSzMax)
    (c : Capture) : ∃ s' o, receive order dnsPort s c = some (s', o) ∧
      ∀ k, (s'.recvBuffers k).length = packetSzMax := by
  have hlen : (c.frame.take packetSzMax).length = min c.frame.length packetSzMax := by
    rw [List.length_take, Nat.min_comm]
  have hfill : (fill (s.recvBuffers c.socket) c.frame).length = packetSzMax := by
    rw [fill, List.length_append, List.length_drop, hs, hlen]
    omega
  have hall : ∀ k, (Function.update s.recvBuffers c.socket
      (fill (s.recvBuffers c.socket) c.frame) k).length = packetSzMax := by
    intro k
    rw [Function.update_apply]
    split_ifs
    · exact hfill
    · exact hs k
  -- a frame that fills the buffer has a payload longer than two bytes
  have hinside := readQuery_inside order dnsPort c.ipSource c.ipDestination
    (c.frame.take packetSzMax) ((s.recvBuffers c.socket).drop (min c.frame.length packetSzMax)) (by
      rintro ⟨u, hu, _, hd⟩ hnil
      have hle := udpStart_le hu
      rw [List.drop_eq_nil_iff, hs] at hnil
      rw [hlen, udpHdrSize] at hd
      rw [packetSzMax] at hnil hd
      omega)
  rw [hlen, ← fill] at hinside
  have hends := finishes_readQuery order dnsPort c.ipSource c.ipDestination
    (fill (s.recvBuffers c.socket) c.frame) (min c.frame.length packetSzMax) 0
  rw [receive]
  cases hrun : (readQuery order dnsPort c.ipSource c.ipDestination).run
      (fill (s.recvBuffers c.socket) c.frame) (min c.frame.length packetSzMax) 0 with
  | error e =>
    cases e with
    | outOfRange => exact absurd hrun hinside
    | outOfFuel => exact absurd hrun hends
    | failed code => exact ⟨_, none, rfl, hall⟩
  | ok v =>
    obtain ⟨x, q⟩ := v
    cases x with
    | none => exact ⟨_, none, rfl, hall⟩
    | some ipacket => exact ⟨_, _, rfl, hall⟩

end RawServer

/- What is not checked of a datagram: two bytes of the buffer are behind it, and the generator
   gives more different numbers than the table has places. -/
def Fed : Happening → Prop
  | .datagram d => d.n + wordSlack ≤ d.buf.length ∧ maxFwdQueries < d.draws.dedup.length
  | _ => True

theorem route_defined {d : Datagram} (h : d.n + wordSlack ≤ d.buf.length) :
    ∃ r, route d = some r := by
  have hin := slack_read d.garbage d.buf d.n 0 h (Nat.zero_le _)
  rw [route]
  split_ifs
  · exact ⟨_, rfl⟩
  · exact ⟨_, rfl⟩
  · exact ⟨_, rfl⟩
  rw [Datagram.read]
  cases hread : (DnsPacket.read d.garbage).run d.buf d.n 0 with
  | error e =>
    rw [hread] at hin
    obtain ⟨code, rfl⟩ := hin
    exact ⟨_, rfl⟩
  | ok v =>
    by_cases hreq : v.1.isRequest = true
    · exact ⟨_, if_pos hreq⟩
    · exact ⟨_, if_neg hreq⟩

theorem exists_unused_draw {E : Type} {pr : PeerRequests E} {draws : List (Fin 0xffff)}
    (hlen : pr.records.length ≤ maxFwdQueries) (h : maxFwdQueries < draws.dedup.length) :
    ∃ d ∈ draws, pr.usesId (PeerRequests.distribute d) = false := by
  by_contra hall
  push Not at hall
  have hsub : draws.dedup.map PeerRequests.distribute ⊆ pr.records.map PeerRequestRecord.newId := by
    intro id hid
    obtain ⟨d, hd, rfl⟩ := List.mem_map.mp hid
    have hu := hall d (List.mem_dedup.mp hd)
    simp only [PeerRequests.usesId, ne_eq, Bool.not_eq_false, List.any_eq_true, Bool.and_eq_true,
      beq_iff_eq] at hu
    obtain ⟨r, hr, _, hnew⟩ := hu
    exact List.mem_map.mpr ⟨r, hr, hnew⟩
  have hnodup : (draws.dedup.map PeerRequests.distribute).Nodup :=
    (List.nodup_dedup draws).map PeerRequests.distribute_injective
  have hle := (List.subperm_of_subset hnodup hsub).length_le
  simp only [List.length_map] at hle
  omega

/-- The daemon is one that the wrapper describes, its table of requests is in order, and its
buffers for frames have their size. -/
structure Daemon.Ready (servers : List (UpstreamServerInfo Endpoint)) (s : Daemon) : Prop where
  described : ∃ w, Refines s w
  inv : s.Inv servers
  buffers : ∀ k, (s.raw.recvBuffers k).length = packetSzMax

section Progress
variable {order : ByteOrder} {dnsPort : UInt16} {servers : List (UpstreamServerInfo Endpoint)}

theorem Daemon.ready_start : (Daemon.start servers).Ready servers where
  described := ⟨_, refines_start servers⟩
  inv := Daemon.inv_start servers
  buffers _ := List.length_replicate

theorem datagram_buffers {s s' : Daemon} {d : Datagram} {sent : List (Sent Endpoint)}
    (h : s.step order dnsPort (.datagram d) = some (s', sent)) :
    s'.raw.recvBuffers = s.raw.recvBuffers := by
  obtain ⟨_, _, heq⟩ := Option.map_eq_some_iff.mp h
  cases heq
  rfl

theorem datagram_defined {s : Daemon} (hs : s.Ready servers) {d : Datagram}
    (hfed : Fed (.datagram d)) : ∃ s' sent, s.step order dnsPort (.datagram d) = some (s', sent) := by
  obtain ⟨r, hroute⟩ := route_defined hfed.1
  obtain ⟨w, hw⟩ := hs.described
  cases r with
  | dropped => exact ⟨_, _, by simp only [Daemon.step, Service.receive, hroute]; rfl⟩
  | malformed code => exact ⟨_, _, by simp only [Daemon.step, Service.receive, hroute]; rfl⟩
  | response packet => exact ⟨_, _, by simp only [Daemon.step, Service.receive, hroute]; rfl⟩
  | request packet =>
    by_cases hv : packet.validate .incomingRequest = eNoError
    · rw [step_request hw hroute hv]
      cases w.rules.actionFor (w.input d.endpoint) with
      | resolve =>
        obtain ⟨t, sent, hres⟩ := DnsServer.resolve_defined s.dns packet d.endpoint d.ipv4 d.now
          d.fresh (exists_unused_draw hs.inv.requests.length hfed.2)
        rw [Datagram.event, DnsServer.step, hres]
        exact ⟨_, _, rfl⟩
      | redirect target => exact ⟨_, _, rfl⟩
    · simp only [Daemon.step, Service.receive, hroute, Option.bind_eq_bind, Option.bind_some,
        Service.processRequest, ne_eq, hv, not_false_eq_true, if_true]
      exact ⟨_, _, rfl⟩

/-- From a ready daemon every step is defined and leads to a ready daemon. -/
theorem step_defined (s : Daemon) (e : Happening) (hs : s.Ready servers)
    (hok : CallAppends s e ∧ Fed e) :
    ∃ s' sent, s.step order dnsPort e = some (s', sent) ∧ s'.Ready servers := by
  have hdefined : ∃ s' sent, s.step order dnsPort e = some (s', sent) ∧
      ∀ k, (s'.raw.recvBuffers k).length = packetSzMax := by
    cases e with
    | datagram d =>
      obtain ⟨s', sent, hstep⟩ := datagram_defined hs hok.2
      exact ⟨s', sent, hstep, by rw [datagram_buffers hstep]; exact hs.buffers⟩
    | frame c =>
      obtain ⟨raw, o, hrecv, hbufs⟩ := RawServer.receive_defined hs.buffers c
      exact ⟨_, _, by rw [Daemon.step, hrecv, Option.map_some], hbufs⟩
    | call c =>
      obtain ⟨w, hw⟩ := hs.described
      obtain ⟨rd, o, hexec, _⟩ := hw.rules.after hok.1
      exact ⟨{ s with rules := rd }, [], by rw [Daemon.step, hexec, Option.map_some], hs.buffers⟩
  obtain ⟨s', sent, hstep, hbufs⟩ := hdefined
  obtain ⟨w, hw⟩ := hs.described
  obtain ⟨m, w', _, _, hw'⟩ := step_heard s w e s' sent hw hok.1 hstep
  exact ⟨s', sent, hstep, ⟨w', hw'⟩, inv_daemon s e s' sent hs.inv hstep, hbufs⟩

end Progress

/-- In any interleaving of datagrams that leave two bytes of their buffer, frames of any kind, and
calls whose insertions append or are rejected, every step is defined: nothing is read outside a
buffer, and every search for an unused ID ends. -/
theorem daemon_runs (servers : List (UpstreamServerInfo Endpoint)) (order : ByteOrder)
    (dnsPort : UInt16) (es : List Happening) (hfed : ∀ e ∈ es, Fed e)
    (hok : Admits (Daemon.step order dnsPort) CallAppends (Daemon.start servers) es) :
    ∃ s os, run (Daemon.step order dnsPort) (Daemon.start servers) es = some (s, os) := by
  have hboth := Runs.admits_and hok (Runs.admits_of_forall (fun e he _ => hfed e he) _)
  exact Runs.run_defined step_defined Daemon.ready_start hboth

/- The query above with a generator that gives every number, a frame that fills the buffer of its
   socket, and a rule. -/
def fedHappenings : List Happening :=
  [.datagram { arrived namedQuery with draws := List.finRange 0xffff },
    .frame { RawServer.captured (RawServer.askedFrom 1 sampleHost) 100 with
      frame := List.replicate 70000 0 }, .call (.appendRule sampleEth)]

theorem daemon_runs_fedHappenings : ∃ s os,
    run (Daemon.step .little 53) (Daemon.start upstreamAt) fedHappenings = some (s, os) := by
  apply daemon_runs
  · simp only [fedHappenings, List.forall_mem_cons]
    refine ⟨⟨?_, ?_⟩, trivial, trivial, fun e he => by cases he⟩
    · simp only [arrived, namedQuery, List.length_append, List.length_replicate]
      decide
    rw [(List.nodup_finRange _).dedup, List.length_finRange]
    decide
  · apply Runs.admits_of_forall
    simp only [fedHappenings, List.forall_mem_cons]
    refine ⟨fun s => trivial, fun s => trivial, ?_, fun e he => by cases he⟩
    intro s r index heq
    cases heq

end DnsWrapper.Dns
