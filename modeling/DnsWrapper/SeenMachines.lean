import Mathlib.Data.List.Find
import DnsWrapper.EthMappings
import DnsWrapper.KeyedTable

/-! What the table of machines is for: for each machine the IPv4 address that it was last seen
to send from. The bytes of the union behind that address, the records behind count and the
family of a record do not show in it. -/
namespace DnsWrapper.Bookkeeping
open NetCommon ByteWord

structure Seen where
  machine : EthAddress
  address : Vector UInt8 4
  time : Int
  deriving DecidableEq

def MacMappingRecord.seen (r : MacMappingRecord) : Seen :=
  ⟨r.ethaddress, r.ipaddress.ipv4Bytes, r.time⟩

namespace Seen

/- The place that a full table gives up, as Add chooses it. -/
def giveUp (ms : List Seen) (m : Seen) : Option Nat :=
  let i := ms.findIdx fun s => ms.all fun q => q.time ≤ s.time
  if ms[i]?.any fun s => m.time - s.time > EthMappings.timeout then some i else none

def see : List Seen → Seen → List Seen := KeyedTable.put machine maxMacIpMappings giveUp

def find (ms : List Seen) (address : Vector UInt8 4) : Option Seen :=
  ms.find? fun s => s.address = address

/-- What is found was last seen at the address. Nothing is found only if no machine was, or if
there were more machines than places. -/
theorem find_fill (ms : List Seen) (address : Vector UInt8 4) :
    match find (KeyedTable.fill machine maxMacIpMappings giveUp ms) address with
    | some b => KeyedTable.IsLast machine ms b ∧ b.address = address
    | none => (ms.map machine).dedup.length ≤ maxMacIpMappings →
      ∀ b, KeyedTable.IsLast machine ms b → b.address ≠ address := by
  cases hfind : find (KeyedTable.fill machine maxMacIpMappings giveUp ms) address with
  | some b =>
    exact ⟨(KeyedTable.sound_fill ms).last b (List.mem_of_find?_eq_some hfind),
      of_decide_eq_true (List.find?_some (p := fun s : Seen => s.address = address) hfind)⟩
  | none =>
    intro hroom b hb haddress
    have hno := List.find?_eq_none.mp hfind b ((KeyedTable.mem_fill_iff hroom b).mpr hb)
    exact hno (decide_eq_true haddress)

end Seen

theorem IpAddress.ipv4_eq_iff_bytes (a b : IpAddress) :
    a.ipv4 = b.ipv4 ↔ a.ipv4Bytes = b.ipv4Bytes := by
  rw [IpAddress.ipv4, IpAddress.ipv4, join32_inj, IpAddress.ipv4Bytes, IpAddress.ipv4Bytes]
  simp only [Vector.mk.injEq, Array.mk.injEq, List.cons.injEq, and_true]
  constructor
  · rintro ⟨h₃, h₂, h₁, h₀⟩
    exact ⟨h₀, h₁, h₂, h₃⟩
  · rintro ⟨h₀, h₁, h₂, h₃⟩
    exact ⟨h₃, h₂, h₁, h₀⟩

namespace EthMappings

/- The records in use, as what was seen. -/
def machines (m : EthMappings) : List Seen := m.live.map MacMappingRecord.seen

theorem machines_noMachines : noMachines.machines = [] := rfl

theorem length_machines (m : EthMappings) : m.machines.length = m.count := by
  rw [machines, List.length_map, length_live]

theorem seen_assigned (r : MacMappingRecord) (ethaddress : EthAddress) (ipaddress : IpAddress)
    (now : Int) : (assigned r ethaddress true ipaddress now).seen =
      ⟨ethaddress, ipaddress.ipv4Bytes, now⟩ := by
  rw [MacMappingRecord.seen, assigned]
  simp only [if_true, IpAddress.setIpv4, IpAddress.ipv4Bytes_setWord]

/- A record is put into place i, which is one in use. -/
theorem machines_assign {m : EthMappings} {i : Nat} (hi : i < m.count) (ethaddress : EthAddress)
    (ipaddress : IpAddress) (now : Int) :
    (m.assign i ethaddress true ipaddress now).machines =
      m.machines.set i ⟨ethaddress, ipaddress.ipv4Bytes, now⟩ := by
  obtain ⟨⟨r, hat⟩, helse⟩ := placed_assign m hi ethaddress true ipaddress now
  apply List.ext_getElem?
  intro j
  by_cases hij : i = j
  · subst hij
    rw [List.getElem?_set_self (by rw [length_machines]; exact hi), machines, List.getElem?_map, hat,
      Option.map_some, seen_assigned]
  · rw [List.getElem?_set_ne hij, machines, machines, List.getElem?_map, List.getElem?_map,
      helse j (Ne.symm hij)]

/- The first free record comes into use. -/
theorem machines_grow {m : EthMappings} (h : m.count < maxMacIpMappings) (ethaddress : EthAddress)
    (ipaddress : IpAddress) (now : Int) :
    ({ m with count := m.count + 1, count_le := h }.assign m.count ethaddress true ipaddress
        now).machines = m.machines ++ [⟨ethaddress, ipaddress.ipv4Bytes, now⟩] := by
  obtain ⟨⟨r, hat⟩, helse⟩ := placed_grow m h ethaddress true ipaddress now
  apply List.ext_getElem?
  intro j
  rw [List.getElem?_append, length_machines]
  by_cases hlt : j < m.count
  · rw [if_pos hlt, machines, machines, List.getElem?_map, List.getElem?_map,
      helse j (Nat.ne_of_lt hlt)]
  · rw [if_neg hlt, machines, List.getElem?_map]
    by_cases heq : j = m.count
    · rw [heq, hat, Nat.sub_self, Option.map_some, seen_assigned]
      rfl
    · have hlive : m.live[j]? = none := by
        rw [List.getElem?_eq_none_iff, length_live]
        omega
      rw [helse j heq, hlive, Option.map_none, List.getElem?_eq_none_iff.mpr]
      rw [List.length_singleton]
      omega

theorem giveUp_machines {m : EthMappings} {r : MacMappingRecord} {i : Nat}
    (h : IsLatest m.live (some (r, i))) (x : Seen) :
    Seen.giveUp m.machines x = if x.time - r.time > timeout then some i else none := by
  have hidx : (m.machines.findIdx fun s => m.machines.all fun q => q.time ≤ s.time) = i := by
    rw [machines, List.findIdx_map]
    have hall : ((fun s : Seen => (m.live.map MacMappingRecord.seen).all fun q => q.time ≤ s.time) ∘
        MacMappingRecord.seen) = fun s => m.live.all fun q => q.time ≤ s.time := by
      funext s
      simp only [Function.comp_apply, List.all_map]
      rfl
    rw [hall]
    exact (findIdx_latest h).1
  have hat : m.machines[i]? = some r.seen := by
    rw [machines, List.getElem?_map, h.1, Option.map_some]
  rw [Seen.giveUp]
  simp only [hidx, hat, Option.any_some, MacMappingRecord.seen, decide_eq_true_eq]

/-- A call of Add for IPv4 is a sighting of the machine at the address. -/
theorem machines_add (m : EthMappings) (now : Int) (ethaddress : EthAddress)
    (ipaddress : IpAddress) : (m.add now ethaddress true ipaddress).1.machines =
      Seen.see m.machines ⟨ethaddress, ipaddress.ipv4Bytes, now⟩ := by
  have hfind : (m.machines.findIdx? fun s => s.machine = ethaddress) =
      m.live.findIdx? fun r => r.ethaddress = ethaddress := by
    rw [machines, List.findIdx?_map]
    rfl
  rw [Seen.see, KeyedTable.put, hfind, length_machines]
  cases hknown : m.live.findIdx? fun r => r.ethaddress = ethaddress with
  | some i =>
    have hi := (List.findIdx?_eq_some_iff_getElem.mp hknown).1
    rw [length_live] at hi
    rw [add_known hknown]
    exact machines_assign hi ethaddress ipaddress now
  | none =>
    by_cases hroom : m.count < maxMacIpMappings
    · simp only [if_pos hroom]
      rw [add_room hknown hroom]
      exact machines_grow hroom ethaddress ipaddress now
    · obtain ⟨r, i, hlatest, hadd⟩ := add_full hknown hroom now true ipaddress
      have hi := (findIdx_latest hlatest).2
      rw [length_live] at hi
      simp only [if_neg hroom]
      rw [giveUp_machines hlatest, hadd]
      by_cases hage : now - r.time > timeout
      · simp only [if_pos hage]
        exact machines_assign hi ethaddress ipaddress now
      · simp only [if_neg hage]

/-- Looking up an IPv4 address is looking it up in what was seen. -/
theorem machines_lookUp {m : EthMappings} (h : m.AllIpv4) (a : IpAddress) :
    (m.lookUp a true).map MacMappingRecord.seen = Seen.find m.machines a.ipv4Bytes := by
  rw [lookUp, Seen.find, machines, List.find?_map]
  congr 1
  apply List.find?_congr
  intro r hr
  simp only [hit, h r hr, Function.comp_apply, MacMappingRecord.seen, Bool.decide_and]
  simp [IpAddress.ipv4_eq_iff_bytes, eq_comm]

end EthMappings

end DnsWrapper.Bookkeeping
