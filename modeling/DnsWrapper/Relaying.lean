import Mathlib.Data.List.Flatten
import DnsWrapper.ServerSteps

/-! Every relayed answer was asked for, once. The keys still owed to clients are those of
the records in use; resolve adds at most the key of its own request, and a relay pays out
the keys of one record and frees it. -/
namespace DnsWrapper.Dns
open NetCommon Bookkeeping PeerRequests
open scoped List
variable {E : Type}

/- A client, its ID and the digest of its questions. -/
abbrev Key (E : Type) := PeerSource E × List UInt8

def recordKeys (r : PeerRequestRecord E) : List (Key E) := r.sources.map fun c => (c, r.hash)

def owed (rs : List (PeerRequestRecord E)) : List (Key E) := (inFlight rs).flatMap recordKeys

def Event.asks : Event E → Option (Key E)
  | .resolve packet endpoint ipv4 _ _ _ => some (addSource packet endpoint ipv4, packet.hash)
  | _ => none

def relayedOf (sent : List (Sent E)) : List (Sent E) := sent.filter fun d => d.kind = .relayed

def Sent.key (d : Sent E) : Key E := (⟨d.endpoint, d.ipv4, d.packet.getId⟩, d.packet.hash)

theorem owed_append_used {a b : List (PeerRequestRecord E)} {r : PeerRequestRecord E}
    (h : r.inUse = true) : owed (a ++ r :: b) = owed a ++ (recordKeys r ++ owed b) := by
  rw [owed, inFlight_append_used h, List.flatMap_append, List.flatMap_cons]
  rfl

theorem owed_append_free {a b : List (PeerRequestRecord E)} {r : PeerRequestRecord E}
    (h : r.sentTo = none) : owed (a ++ r :: b) = owed a ++ owed b := by
  rw [owed, inFlight_append_free h, List.flatMap_append]
  rfl

theorem owed_sublist {rs rs' : List (PeerRequestRecord E)} (h : inFlight rs <+ inFlight rs') :
    owed rs <+ owed rs' := h.flatMap recordKeys

theorem relayedOf_map {α : Type} {l : List α} {f : α → Sent E} (h : ∀ x, (f x).kind ≠ .relayed) :
    relayedOf (l.map f) = [] := by
  rw [relayedOf, List.filter_eq_nil_iff]
  intro d hd
  obtain ⟨x, _, rfl⟩ := List.mem_map.mp hd
  simpa using h x

/- The relay loop pays out exactly the keys of the record. -/
theorem keys_relay {packet : DnsPacket} {r : PeerRequestRecord E} (h : r.hash = packet.hash) :
    (relayedOf (DnsServer.relay packet r.sources)).map Sent.key = recordKeys r := by
  have hall : relayedOf (DnsServer.relay packet r.sources) = DnsServer.relay packet r.sources := by
    rw [relayedOf, List.filter_eq_self]
    intro d hd
    obtain ⟨c, _, rfl⟩ := List.mem_map.mp hd
    rfl
  rw [hall, DnsServer.relay, List.map_map, recordKeys, h]
  rfl

namespace DnsServer

theorem relayedOf_resolved {s s' : DnsServer E} {packet : DnsPacket} {endpoint : E} {ipv4 : Bool}
    {sent : List (Sent E)} (h : Resolved s packet endpoint ipv4 s' sent) : relayedOf sent = [] := by
  cases h with
  | unconfigured h => rfl
  | waiting h ht hc => rfl
  | refused hin htidy hlen => rfl
  | joined h ht hc hr => rfl
  | rearmed h ht hr hsent =>
    rw [hsent]
    exact relayedOf_map nofun
  | opened hnone hnew hpr hin hid hr hsent =>
    rw [hsent]
    exact relayedOf_map nofun

/-- resolve owes at most one key more than before, that of its own request. -/
theorem owed_resolved {s s' : DnsServer E} {packet : DnsPacket} {endpoint : E} {ipv4 : Bool}
    {sent : List (Sent E)} (hs : Inv s) (h : Resolved s packet endpoint ipv4 s' sent) :
    owed s'.records <+~ (addSource packet endpoint ipv4, packet.hash) :: owed s.records := by
  cases h with
  | unconfigured h => exact (List.Subperm.refl _).cons_right _
  | waiting h ht hc => exact (List.Subperm.refl _).cons_right _
  | refused hin htidy hlen => exact (owed_sublist hin).subperm.cons_right _
  | @joined a r b _ h ht hc hr =>
    have huse : PeerRequestRecord.inUse
        { r with additional := addSource packet endpoint ipv4 :: r.additional } = true := h.inUse
    rw [hr, h.split, owed_append_used huse, owed_append_used h.inUse, ← h.hash]
    have hkeys : recordKeys { r with additional := addSource packet endpoint ipv4 :: r.additional } ~
        (addSource packet endpoint ipv4, r.hash) :: recordKeys r := List.Perm.swap _ _ _
    have hmid : owed a ++ ((addSource packet endpoint ipv4, r.hash) :: (recordKeys r ++ owed b)) ~
        (addSource packet endpoint ipv4, r.hash) :: (owed a ++ (recordKeys r ++ owed b)) :=
      List.perm_middle
    exact (((hkeys.append_right (owed b)).append_left (owed a)).trans hmid).subperm
  | @rearmed a r b _ _ h ht hr hsent =>
    rw [hr, h.split, owed_append_used rfl, owed_append_used h.inUse]
    refine List.Subperm.cons_right _ (List.Sublist.subperm ?_)
    refine (List.Sublist.refl _).append (List.Sublist.append ?_ (List.Sublist.refl _))
    exact (List.nil_sublist _).cons_cons _
  | @opened a r b id pr _ _ hnone hnew hpr hin hid hr hsent =>
    rw [hr, owed_append_used rfl]
    have hsub := owed_sublist hin
    rw [owed, inFlight, List.filter_append, List.flatMap_append] at hsub
    have hkeys : recordKeys { r with
        source := addSource packet endpoint ipv4, newId := id, hash := packet.hash,
        flags := fwdFlags, sentTo := some (s.servers.length - 1) } =
        [(addSource packet endpoint ipv4, packet.hash)] := by
      simp only [recordKeys, PeerRequestRecord.sources, (hnew.tidy hs.tidy).1, List.map_cons,
        List.map_nil]
    rw [hkeys]
    exact List.perm_middle.subperm.trans ((List.subperm_cons _).mpr hsub.subperm)

/-- A reply pays out what it no longer owes. -/
theorem owed_responded {s s' : DnsServer E} {packet : DnsPacket} {sent : List (Sent E)}
    (h : Responded s packet s' sent) :
    (relayedOf sent).map Sent.key ++ owed s'.records <+~ owed s.records := by
  cases h with
  | dropped h =>
    rw [h]
    exact List.Subperm.refl _
  | @relayed a r b _ hsplit huse hid hhash hr =>
    rw [keys_relay hhash, hr, hsplit, owed_append_free rfl, owed_append_used huse,
      ← List.append_assoc, ← List.append_assoc]
    exact (List.perm_append_comm.append_right (owed b)).subperm

/- The request behind a key. -/
theorem asked_request {es : List (Event E)} {d : Sent E} {i : Nat}
    (h : Runs.AskedAt Event.asks es d.key i) : ∃ packet now draws fresh,
      es[i]? = some (.resolve packet d.endpoint d.ipv4 now draws fresh) ∧
      packet.getId = d.packet.getId ∧ packet.hash = d.packet.hash := by
  obtain ⟨e, he, hasks⟩ := h
  cases e with
  | resolve packet endpoint ipv4 now draws fresh =>
    simp only [Event.asks, addSource, Sent.key, Option.some.injEq, Prod.mk.injEq,
      PeerSource.mk.injEq] at hasks
    obtain ⟨⟨rfl, rfl, hid⟩, hhash⟩ := hasks
    exact ⟨packet, now, draws, fresh, he, hid, hhash⟩
  | response packet endpoint now => cases hasks
  | redirect packet endpoint ipv4 target => cases hasks

variable [DecidableEq E]

theorem owed_step (s : DnsServer E) (e : Event E) (t : DnsServer E) (sent : List (Sent E))
    (hs : Inv s) (h : s.step e = some (t, sent)) :
    (relayedOf sent).map Sent.key ++ owed t.records <+~ e.asks.toList ++ owed s.records := by
  cases e with
  | resolve packet endpoint ipv4 now draws fresh =>
    have hr := resolve_resolved h
    rw [relayedOf_resolved hr]
    exact owed_resolved hs hr
  | response packet endpoint now => exact owed_responded (response_responded (Option.some.inj h))
  | redirect packet endpoint ipv4 target =>
    cases h
    exact List.Subperm.refl _

theorem relayed_or_asks (s : DnsServer E) (e : Event E) (t : DnsServer E) (sent : List (Sent E))
    (h : s.step e = some (t, sent)) : (relayedOf sent).map Sent.key = [] ∨ e.asks = none := by
  cases e with
  | resolve packet endpoint ipv4 now draws fresh =>
    left
    rw [relayedOf_resolved (resolve_resolved h)]
    rfl
  | response packet endpoint now => exact .inr rfl
  | redirect packet endpoint ipv4 target => exact .inr rfl

/- The datagrams relayed in a run, each with the number of the event that sent it. -/
def relayedIn (os : List (List (Sent E))) : List (Nat × Sent E) := Runs.answersFrom relayedOf 0 os

theorem relayed_keys_matched {servers : List (UpstreamServerInfo E)} {es : List (Event E)}
    {s : DnsServer E} {os : List (List (Sent E))} (h : run servers es = some (s, os)) :
    ∃ asked : List Nat, asked.Nodup ∧
      List.Forall₂ (fun (x : Nat × Sent E) i => i < x.1 ∧ Runs.AskedAt Event.asks es x.2.key i)
        (relayedIn os) asked := by
  obtain ⟨asked, hnodup, hall⟩ := Runs.answers_matched inv_step relayed_or_asks owed_step
    (inv_start servers) rfl h
  rw [Runs.answersFrom_map, List.forall₂_map_left_iff] at hall
  exact ⟨asked, hnodup, hall⟩

/-- The datagrams relayed in a run can be matched with pairwise different earlier requests
from the same endpoint and address family, with the same ID and the same digest. -/
theorem relayed_matched (servers : List (UpstreamServerInfo E)) (es : List (Event E))
    (s : DnsServer E) (os : List (List (Sent E))) (h : run servers es = some (s, os)) :
    ∃ asked : List Nat, asked.Nodup ∧
      List.Forall₂ (fun (x : Nat × Sent E) i => i < x.1 ∧ ∃ packet now draws fresh,
          es[i]? = some (.resolve packet x.2.endpoint x.2.ipv4 now draws fresh) ∧
          packet.getId = x.2.packet.getId ∧ packet.hash = x.2.packet.hash)
        (relayedIn os) asked := by
  obtain ⟨asked, hnodup, hall⟩ := relayed_keys_matched h
  exact ⟨asked, hnodup, hall.imp fun x i hx => ⟨hx.1, asked_request hx.2⟩⟩

/- One client asks, the upstream server answers twice. -/
def answeredTwice : List (Event Nat) :=
  [.resolve (sampleQuery 7) 1 true 5 [firstDraw] freshRecord,
    .response ((sampleQuery 1).setAsQueryResponse) 0 6,
    .response ((sampleQuery 1).setAsQueryResponse) 0 7]

theorem relayed_matched_answeredTwice :
    ∃ s os, run sampleServers answeredTwice = some (s, os) ∧ (relayedIn os).length = 1 ∧
      ∃ asked : List Nat, asked.Nodup ∧
        List.Forall₂ (fun (x : Nat × Sent Nat) i => i < x.1 ∧ ∃ packet now draws fresh,
            answeredTwice[i]? = some (.resolve packet x.2.endpoint x.2.ipv4 now draws fresh) ∧
            packet.getId = x.2.packet.getId ∧ packet.hash = x.2.packet.hash)
          (relayedIn os) asked := by
  have hrun : (run sampleServers answeredTwice).map (fun x => (relayedIn x.2).length) = some 1 := by
    decide +kernel
  obtain ⟨⟨s, os⟩, hs, hone⟩ := Option.map_eq_some_iff.mp hrun
  exact ⟨s, os, hs, hone, relayed_matched sampleServers answeredTwice s os hs⟩

end DnsServer
end DnsWrapper.Dns
