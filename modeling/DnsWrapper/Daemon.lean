import DnsWrapper.MacTracking
import DnsWrapper.Receive
import DnsWrapper.RuleDecision
import DnsWrapper.SeenMachines

/-! The daemon as one machine: its thread handles the datagrams of the DNS sockets and the
frames of the raw socket one by one, and other processes call the rule engine in between, each
under the mutex that Evaluate takes too. Over it what the daemon is for: requests are decided by
a list of rules, for the machine last seen at the client's address. -/
namespace DnsWrapper.Dns
open ByteReader NetCommon Net Bookkeeping Shm
open Runs (run Admits)

inductive Happening where
  | datagram (d : Datagram)
  | frame (c : Capture)
  | call (c : Call)

structure Daemon where
  dns : DnsServer Endpoint
  raw : RawServer
  rules : RuleData

/- The shared memory is fresh, and no frame was captured yet. -/
def Daemon.start (servers : List (UpstreamServerInfo Endpoint)) : Daemon where
  dns := DnsServer.start servers
  raw := RawServer.initial .noMachines
  rules := RuleData.zeroed

def Daemon.service (s : Daemon) : Service := ⟨s.dns, s.raw.ethmappings, s.rules⟩

def Daemon.step (order : ByteOrder) (dnsPort : UInt16) (s : Daemon) :
    Happening → Option (Daemon × List (Sent Endpoint))
  | .datagram d => (s.service.receive d).map fun x =>
    (⟨x.1.dns, { s.raw with ethmappings := x.1.ethmappings }, x.1.rules⟩, x.2)
  | .frame c => (RawServer.receive order dnsPort s.raw c).map fun x => ({ s with raw := x.1 }, [])
  | .call c => (s.rules.exec c).map fun x => ({ s with rules := x.1 }, [])

/- What the daemon makes of a happening. -/
inductive Message where
  | nothing
  | request (packet : DnsPacket) (d : Datagram)
  | response (packet : DnsPacket) (d : Datagram)
  | sighting (m : Seen)
  | call (c : Call)

def Route.message (d : Datagram) : Route → Message
  | .dropped => .nothing
  | .malformed _ => .nothing
  | .request packet =>
    if packet.validate .incomingRequest ≠ eNoError then .nothing else .request packet d
  | .response packet => .response packet d

def Datagram.message (d : Datagram) : Option Message := (route d).map (Route.message d)

/- stale are the bytes behind the frame in the receive buffer. The frame's address goes into the
   table as an IPv4 one; of an IPv6 address these are the first four bytes. -/
def Capture.message (order : ByteOrder) (dnsPort : UInt16) (stale : List UInt8) (c : Capture) :
    Option Message :=
  match (RawServer.readQuery order dnsPort c.ipSource c.ipDestination).run
      (c.frame.take packetSzMax ++ stale) (min c.frame.length packetSzMax) 0 with
  | .error (.failed _) => some .nothing
  | .error _ => none
  | .ok (none, _) => some .nothing
  | .ok (some ipacket, _) =>
    some (.sighting ⟨ipacket.ethSource, ipacket.ipSource.ipv4Bytes, c.now⟩)

/- The bytes behind a frame are those of earlier frames. -/
def Hears (order : ByteOrder) (dnsPort : UInt16) : Happening → Message → Prop
  | .datagram d, m => d.message = some m
  | .frame c, m => ∃ stale, c.message order dnsPort stale = some m
  | .call c, m => m = .call c

structure Wrapper where
  rules : RuleList
  machines : List Seen
  forwarder : DnsServer Endpoint

namespace Wrapper

def start (servers : List (UpstreamServerInfo Endpoint)) : Wrapper where
  rules := RuleList.zeroed
  machines := []
  forwarder := DnsServer.start servers

/- The machine last seen at an address; zeros if there is none, and for every IPv6 address. -/
def machineAt (w : Wrapper) : WireAddress → EthAddress
  | .v4 octets => ((Seen.find w.machines octets).map Seen.machine).getD ⟨Vector.replicate 6 0⟩
  | .v6 _ => ⟨Vector.replicate 6 0⟩

def input (w : Wrapper) (endpoint : Endpoint) : Input where
  ipv4 := endpoint.address.isV4
  ethaddr := w.machineAt endpoint.address
  ipaddr := endpoint.address.store ⟨Vector.replicate 16 0⟩

def step (w : Wrapper) : Message → Option (Wrapper × List (Sent Endpoint))
  | .nothing => some (w, [])
  | .request packet d => do
    let (forwarder, sent) ←
      w.forwarder.step (d.event packet (w.rules.actionFor (w.input d.endpoint)))
    pure ({ w with forwarder }, sent)
  | .response packet d =>
    let (forwarder, sent) := w.forwarder.processUpstreamResponse packet d.endpoint d.now
    some ({ w with forwarder }, sent)
  | .sighting m => some ({ w with machines := Seen.see w.machines m }, [])
  | .call c => some ({ w with rules := w.rules.after c }, [])

end Wrapper

/-- The array stores the rules of the list, the table of machines is what was seen, and the
forwarding server is the same. -/
structure Refines (s : Daemon) (w : Wrapper) : Prop where
  rules : Represents s.rules w.rules
  machines : s.raw.ethmappings.machines = w.machines
  family : s.raw.ethmappings.AllIpv4
  forwarder : s.dns = w.forwarder

theorem refines_start (servers : List (UpstreamServerInfo Endpoint)) :
    Refines (Daemon.start servers) (Wrapper.start servers) where
  rules := zeroed_represents
  machines := EthMappings.machines_noMachines
  family := fun _ hr => by cases hr
  forwarder := rfl

/- What is not checked when the rules are called: insertions append or are rejected. -/
def CallAppends (s : Daemon) : Happening → Prop
  | .call c => AppendsOrRejected s.rules c
  | _ => True

section Input
variable {s : Daemon} {w : Wrapper}

theorem ipv4Bytes_store (octets : Vector UInt8 4) (before : IpAddress) :
    ((WireAddress.v4 octets).store before).ipv4Bytes = octets := before.ipv4Bytes_setWord octets

/- The machine found for a client is the one of the abstract level. -/
theorem Refines.machine (h : Refines s w) (d : Datagram) :
    (s.service.input d).ethaddr = w.machineAt d.endpoint.address := by
  simp only [Service.input, Datagram.ipv4, Daemon.service]
  cases d.endpoint.address with
  | v4 octets =>
    have hlook := EthMappings.machines_lookUp h.family
      ((WireAddress.v4 octets).store ⟨Vector.replicate 16 0⟩)
    rw [ipv4Bytes_store, h.machines] at hlook
    rw [Wrapper.machineAt, ← hlook, WireAddress.isV4]
    cases s.raw.ethmappings.lookUp ((WireAddress.v4 octets).store ⟨Vector.replicate 16 0⟩) true with
    | some r => rfl
    | none => rfl
  | v6 octets =>
    rw [WireAddress.isV4, EthMappings.lookUp_ipv6 h.family]
    rfl

/- processRequest gives the rules the input of the abstract level. -/
theorem Refines.input (h : Refines s w) (d : Datagram) :
    s.service.input d = w.input d.endpoint := by
  rw [Wrapper.input, ← h.machine d]
  rfl

end Input

section Step
variable {order : ByteOrder} {dnsPort : UInt16} {s s' : Daemon} {w : Wrapper}
  {sent : List (Sent Endpoint)}

/-- A request is the event for the action that the rules have for its client. -/
theorem step_request (h : Refines s w) {d : Datagram} {packet : DnsPacket}
    (hroute : route d = some (.request packet)) (hv : packet.validate .incomingRequest = eNoError) :
    s.step order dnsPort (.datagram d) =
      (s.dns.step (d.event packet (w.rules.actionFor (w.input d.endpoint)))).map
        fun x => ({ s with dns := x.1 }, x.2) := by
  have heval : s.service.rules.evaluate (s.service.input d) =
      some (true, [w.rules.actionFor (w.input d.endpoint)]) := by
    rw [h.input d]
    exact evaluate_choose h.rules _
  simp only [Daemon.step, Service.receive, hroute, Option.bind_eq_bind, Option.bind_some,
    Service.processRequest, hv, ne_eq, not_true_eq_false, if_false, heval, List.map_cons,
    List.map_nil, Runs.run]
  rw [Daemon.service]
  cases s.dns.step (d.event packet (w.rules.actionFor (w.input d.endpoint))) with
  | none => rfl
  | some x => simp

theorem datagram_heard (h : Refines s w) {d : Datagram}
    (hstep : s.step order dnsPort (.datagram d) = some (s', sent)) :
    ∃ m w', d.message = some m ∧ w.step m = some (w', sent) ∧ Refines s' w' := by
  obtain ⟨⟨s₁, sent₁⟩, hrecv, heq⟩ := Option.map_eq_some_iff.mp hstep
  obtain ⟨r, hroute, hrecv⟩ := Option.bind_eq_some_iff.mp hrecv
  cases r with
  | dropped =>
    cases hrecv
    cases heq
    exact ⟨.nothing, w, by rw [Datagram.message, hroute]; rfl, rfl, h⟩
  | malformed code =>
    cases hrecv
    cases heq
    exact ⟨.nothing, w, by rw [Datagram.message, hroute]; rfl, rfl, h⟩
  | request packet =>
    by_cases hv : packet.validate .incomingRequest = eNoError
    · rw [step_request h hroute hv] at hstep
      obtain ⟨⟨forwarder, out⟩, hfor, heq⟩ := Option.map_eq_some_iff.mp hstep
      cases heq
      refine ⟨.request packet d, { w with forwarder }, ?_, ?_, h.rules, h.machines, h.family, rfl⟩
      · rw [Datagram.message, hroute, Option.map_some, Route.message, if_neg (not_not.mpr hv)]
      · rw [Wrapper.step, ← h.forwarder, hfor]
        rfl
    · simp only [Service.processRequest, if_pos hv] at hrecv
      cases hrecv
      cases heq
      refine ⟨.nothing, w, ?_, rfl, h⟩
      rw [Datagram.message, hroute, Option.map_some, Route.message, if_pos hv]
  | response packet =>
    cases hrecv
    cases heq
    refine ⟨.response packet d,
      { w with forwarder := (w.forwarder.processUpstreamResponse packet d.endpoint d.now).1 },
      by rw [Datagram.message, hroute]; rfl, ?_, h.rules, h.machines, h.family, ?_⟩
    · rw [Wrapper.step, ← h.forwarder]
      rfl
    · rw [← h.forwarder]
      rfl

theorem frame_heard (h : Refines s w) {c : Capture}
    (hstep : s.step order dnsPort (.frame c) = some (s', sent)) :
    ∃ m w', Hears order dnsPort (.frame c) m ∧ w.step m = some (w', sent) ∧ Refines s' w' := by
  obtain ⟨⟨raw, added⟩, hrecv, heq⟩ := Option.map_eq_some_iff.mp hstep
  cases heq
  have hfamily := RawServer.allIpv4_receive s.raw c raw added h.family hrecv
  obtain ⟨stale, hstale⟩ : ∃ stale,
    stale = (s.raw.recvBuffers c.socket).drop (min c.frame.length packetSzMax) := ⟨_, rfl⟩
  simp only [RawServer.receive, RawServer.fill, ← hstale] at hrecv
  split at hrecv
  · rename_i code hread
    cases hrecv
    refine ⟨.nothing, w, ⟨stale, ?_⟩, rfl, h.rules, h.machines, hfamily, h.forwarder⟩
    rw [Capture.message, hread]
  · cases hrecv
  · rename_i q hread
    cases hrecv
    refine ⟨.nothing, w, ⟨stale, ?_⟩, rfl, h.rules, h.machines, hfamily, h.forwarder⟩
    rw [Capture.message, hread]
  · rename_i ipacket q hread
    cases hrecv
    refine ⟨.sighting ⟨ipacket.ethSource, ipacket.ipSource.ipv4Bytes, c.now⟩, _, ⟨stale, ?_⟩, rfl,
      h.rules, ?_, hfamily, h.forwarder⟩
    · rw [Capture.message, hread]
    · rw [← h.machines]
      exact EthMappings.machines_add s.raw.ethmappings c.now ipacket.ethSource ipacket.ipSource

/-- One step of the daemon is one step of the wrapper on what was heard, with the same
datagrams sent. -/
theorem step_heard (s : Daemon) (w : Wrapper) (e : Happening) (s' : Daemon)
    (sent : List (Sent Endpoint)) (h : Refines s w) (hok : CallAppends s e)
    (hstep : s.step order dnsPort e = some (s', sent)) :
    ∃ m w', Hears order dnsPort e m ∧ w.step m = some (w', sent) ∧ Refines s' w' := by
  cases e with
  | datagram d => exact datagram_heard h hstep
  | frame c => exact frame_heard h hstep
  | call c =>
    obtain ⟨rd, o, hcall, hrep⟩ := h.rules.after hok
    rw [Daemon.step, hcall] at hstep
    cases hstep
    exact ⟨.call c, _, rfl, rfl, hrep, h.machines, h.family, h.forwarder⟩

end Step

def Message.called : Message → Option Call
  | .call c => some c
  | _ => none

def Message.seen : Message → Option Seen
  | .sighting m => some m
  | _ => none

namespace Wrapper

/- The rules are the calls heard, the machines what was seen. -/
theorem step_parts {w w' : Wrapper} {m : Message} {sent : List (Sent Endpoint)}
    (h : w.step m = some (w', sent)) :
    w'.rules = (match m.called with | some c => w.rules.after c | none => w.rules) ∧
      w'.machines = (match m.seen with | some x => Seen.see w.machines x | none => w.machines) := by
  cases m with
  | nothing =>
    cases h
    exact ⟨rfl, rfl⟩
  | request packet d =>
    obtain ⟨⟨forwarder, outs⟩, _, heq⟩ := Option.bind_eq_some_iff.mp h
    cases heq
    exact ⟨rfl, rfl⟩
  | response packet d =>
    cases h
    exact ⟨rfl, rfl⟩
  | sighting x =>
    cases h
    exact ⟨rfl, rfl⟩
  | call c =>
    cases h
    exact ⟨rfl, rfl⟩

theorem rules_run {w₀ w : Wrapper} {ms : List Message} {os : List (List (Sent Endpoint))}
    (h : run step w₀ ms = some (w, os)) :
    w.rules = (ms.filterMap Message.called).foldl RuleList.after w₀.rules := by
  rw [List.foldl_filterMap]
  refine Runs.run_foldl (fun s m t o hstep => ?_) h
  rw [(step_parts hstep).1]
  cases m.called with
  | none => rfl
  | some c => rfl

theorem machines_run {servers : List (UpstreamServerInfo Endpoint)} {ms : List Message}
    {w : Wrapper} {os : List (List (Sent Endpoint))}
    (h : run step (start servers) ms = some (w, os)) :
    w.machines = KeyedTable.fill Seen.machine maxMacIpMappings Seen.giveUp
      (ms.filterMap Message.seen) := by
  rw [KeyedTable.fill, List.foldl_filterMap]
  refine Runs.run_foldl (fun s m t o hstep => ?_) h
  rw [(step_parts hstep).2]
  cases m.seen with
  | none => rfl
  | some x => rfl

end Wrapper

/-- In any interleaving of datagrams, frames and calls whose insertions append or are rejected,
the daemon sends what the wrapper sends on what was heard. Its rules are then the calls folded
over the empty list, and its machines the sightings folded over the empty table. -/
theorem daemon_refines (servers : List (UpstreamServerInfo Endpoint)) (order : ByteOrder)
    (dnsPort : UInt16) (es : List Happening)
    (hok : Admits (Daemon.step order dnsPort) CallAppends (Daemon.start servers) es) (s : Daemon)
    (os : List (List (Sent Endpoint)))
    (h : run (Daemon.step order dnsPort) (Daemon.start servers) es = some (s, os)) :
    ∃ ms w, List.Forall₂ (Hears order dnsPort) es ms ∧
      run Wrapper.step (Wrapper.start servers) ms = some (w, os) ∧ Refines s w ∧
      w.rules = (ms.filterMap Message.called).foldl RuleList.after RuleList.zeroed ∧
      w.machines = KeyedTable.fill Seen.machine maxMacIpMappings Seen.giveUp
        (ms.filterMap Message.seen) := by
  obtain ⟨ms, w, hms, hw, href⟩ := Runs.run_hears step_heard (refines_start servers) hok h
  exact ⟨ms, w, hms, hw, href, Wrapper.rules_run hw, Wrapper.machines_run hw⟩

/- A machine sends a query, the policy becomes to redirect, and a rule lets the machine through. -/
def oneMachine : List Happening :=
  [.frame (RawServer.captured (RawServer.askedFrom 1 sampleHost) 100),
    .call (.setPolicy .redirect sampleIp.ipaddr sampleIp.ipaddr), .call (.appendRule sampleEth)]

theorem oneMachine_admitted :
    Admits (Daemon.step .little 53) CallAppends (Daemon.start []) oneMachine := by
  apply Runs.admits_of_forall
  simp only [oneMachine, List.forall_mem_cons]
  refine ⟨fun s => trivial, ?_, ?_, fun e he => by cases he⟩
  · intro s r index heq
    cases heq
  · intro s r index heq
    cases heq

theorem oneMachine_runs :
    (run (Daemon.step .little 53) (Daemon.start []) oneMachine).isSome := by
  obtain ⟨bufs, hframe⟩ := RawServer.receive_query .little (RawServer.initial .noMachines)
    (c := RawServer.captured (RawServer.askedFrom 1 sampleHost) 100) rfl
    (RawServer.askedFrom_isQuery 1 sampleHost)
  obtain ⟨rd, o, hset, hrep⟩ := zeroed_represents.step
    (.setPolicy .redirect sampleIp.ipaddr sampleIp.ipaddr) fun h => by cases h
  obtain ⟨rd', o', hadd, _⟩ := hrep.step (.appendRule sampleEth) fun h => by cases h
  simp only [oneMachine, run, Daemon.step, Daemon.start, hframe, hset, hadd, Option.map_some,
    Option.bind_eq_bind, Option.bind_some, Option.pure_def, Option.isSome_some]

theorem daemon_refines_oneMachine :
    Admits (Daemon.step .little 53) CallAppends (Daemon.start []) oneMachine ∧
      ∃ s os ms w, run (Daemon.step .little 53) (Daemon.start []) oneMachine = some (s, os) ∧
        List.Forall₂ (Hears .little 53) oneMachine ms ∧
        run Wrapper.step (Wrapper.start []) ms = some (w, os) ∧ Refines s w := by
  obtain ⟨⟨s, os⟩, hrun⟩ := Option.isSome_iff_exists.mp oneMachine_runs
  obtain ⟨ms, w, hms, hw, href, _⟩ :=
    daemon_refines [] .little 53 oneMachine oneMachine_admitted s os hrun
  exact ⟨oneMachine_admitted, s, os, ms, w, hrun, hms, hw, href⟩

/- What the rules are told of the machine at an address: one last seen there, zeros if there is
   none. More machines than places can leave one out, and no IPv6 address has one. -/
def ToldMachine (history : List Seen) (address : WireAddress) (machine : EthAddress) : Prop :=
  match address with
  | .v4 octets =>
    (∃ b, KeyedTable.IsLast Seen.machine history b ∧ b.address = octets ∧ b.machine = machine) ∨
      machine = ⟨Vector.replicate 6 0⟩ ∧
        ((history.map Seen.machine).dedup.length ≤ maxMacIpMappings →
          ∀ b, KeyedTable.IsLast Seen.machine history b → b.address ≠ octets)
  | .v6 _ => machine = ⟨Vector.replicate 6 0⟩

theorem Wrapper.toldMachine {servers : List (UpstreamServerInfo Endpoint)} {ms : List Message}
    {w : Wrapper} {os : List (List (Sent Endpoint))} (h : run step (start servers) ms = some (w, os))
    (address : WireAddress) :
    ToldMachine (ms.filterMap Message.seen) address (w.machineAt address) := by
  cases address with
  | v4 octets =>
    have hfind := Seen.find_fill (ms.filterMap Message.seen) octets
    rw [← machines_run h] at hfind
    simp only [ToldMachine, machineAt]
    cases hat : Seen.find w.machines octets with
    | some b =>
      rw [hat] at hfind
      exact .inl ⟨b, hfind.1, hfind.2, rfl⟩
    | none =>
      rw [hat] at hfind
      exact .inr ⟨rfl, hfind⟩
  | v6 octets => rfl

def namedPacket : DnsPacket where
  header := ⟨7, 1, 0, 1, 0, 0, 0⟩
  questions := [⟨⟨[101, 120, 97, 109, 112, 108, 101], by decide⟩, qtNS, 1⟩]
  answers := []
  authorities := []
  additionals := []

theorem namedQuery_route : route (arrived namedQuery) = some (.request namedPacket) := by
  rfl

end DnsWrapper.Dns
