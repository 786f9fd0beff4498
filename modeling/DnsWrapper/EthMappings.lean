import Mathlib.Data.List.Basic
import DnsWrapper.NetCommon

/-! The table of machines seen on the raw sockets: one record for a MAC address, looked up by
the IP address. -/
namespace DnsWrapper.Bookkeeping
open NetCommon

def maxMacIpMappings : Nat := 100

structure MacMappingRecord where
  ethaddress : EthAddress
  ipv4 : Bool
  ipaddress : IpAddress
  time : Int
  deriving DecidableEq

/- The records behind count hold what the constructor left there. -/
structure EthMappings where
  count : Nat
  records : List MacMappingRecord
  count_le : count ≤ maxMacIpMappings
  length_records : records.length = maxMacIpMappings

namespace EthMappings

def noMachines : EthMappings where
  count := 0
  records := List.replicate maxMacIpMappings
    ⟨⟨Vector.replicate 6 0⟩, false, ⟨Vector.replicate 16 0⟩, 0⟩
  count_le := Nat.zero_le _
  length_records := List.length_replicate

def timeout : Int := 5

def live (m : EthMappings) : List MacMappingRecord := m.records.take m.count

/- A pointer is an index, with the record it points to where that is read. -/
def updateOldest (oldest : Option (MacMappingRecord × Nat)) (r : MacMappingRecord) (i : Nat) :
    Option (MacMappingRecord × Nat) :=
  match oldest with
  | none => some (r, i)
  | some o => if o.1.time < r.time then some (r, i) else some o

/- The loop of Add from index i on, with target and oldest at its end. -/
def scan (ethaddress : EthAddress) : List MacMappingRecord → Nat →
    Option (MacMappingRecord × Nat) → Option Nat × Option (MacMappingRecord × Nat)
  | [], _, oldest => (none, oldest)
  | r :: rs, i, oldest =>
    if r.ethaddress = ethaddress then (some i, oldest)
    else scan ethaddress rs (i + 1) (updateOldest oldest r i)

/- The assignments to target. For IPv4 only the first word of the union is written. -/
def assigned (r : MacMappingRecord) (ethaddress : EthAddress) (ipv4 : Bool)
    (ipaddress : IpAddress) (now : Int) : MacMappingRecord :=
  { ethaddress, ipv4, time := now
    ipaddress := if ipv4 then r.ipaddress.setIpv4 ipaddress else ipaddress }

def assign (m : EthMappings) (i : Nat) (ethaddress : EthAddress) (ipv4 : Bool)
    (ipaddress : IpAddress) (now : Int) : EthMappings :=
  { m with
    records := m.records.modify i fun r => assigned r ethaddress ipv4 ipaddress now
    length_records := by rw [List.length_modify, m.length_records] }

def add (m : EthMappings) (now : Int) (ethaddress : EthAddress) (ipv4 : Bool)
    (ipaddress : IpAddress) : EthMappings × Bool :=
  match scan ethaddress m.live 0 none with
  | (some i, _) => (m.assign i ethaddress ipv4 ipaddress now, true)
  | (none, oldest) =>
    if h : m.count < maxMacIpMappings then
      ({ m with count := m.count + 1, count_le := h }.assign m.count ethaddress ipv4 ipaddress now,
        true)
    else match oldest with
      | none => (m, false)
      | some (r, i) =>
        if now - r.time > timeout then (m.assign i ethaddress ipv4 ipaddress now, true)
        else (m, false)

def hit (ipaddress : IpAddress) (ipv4 : Bool) (r : MacMappingRecord) : Bool :=
  r.ipv4 = ipv4 ∧ ((ipv4 ∧ ipaddress.ipv4 = r.ipaddress.ipv4) ∨
    (¬ ipv4 ∧ ipaddress.ipv6 = r.ipaddress.ipv6))

def lookUp (m : EthMappings) (ipaddress : IpAddress) (ipv4 : Bool) : Option MacMappingRecord :=
  m.live.find? (hit ipaddress ipv4)

/- The place where the next record of this machine goes: that of its own record; else the
   next free one; else, in a full table, the first of those with the latest time. -/
def slot (m : EthMappings) (ethaddress : EthAddress) : Nat :=
  match m.live.findIdx? fun r => r.ethaddress = ethaddress with
  | some i => i
  | none =>
    if m.count < maxMacIpMappings then m.count
    else m.live.findIdx fun r => m.live.all fun q => q.time ≤ r.time

/- No record in front of the machine's slot has the address, an IPv4 one. -/
def ClearBefore (m : EthMappings) (ethaddress : EthAddress) (a : IpAddress) : Prop :=
  ∀ j < m.slot ethaddress, ∀ r, m.live[j]? = some r →
    ¬ (r.ipv4 = true ∧ r.ipaddress.ipv4 = a.ipv4)

theorem length_live (m : EthMappings) : m.live.length = m.count := by
  rw [live, List.length_take, m.length_records, Nat.min_eq_left m.count_le]

theorem scan_fst (ethaddress : EthAddress) (rs : List MacMappingRecord) (i : Nat)
    (oldest : Option (MacMappingRecord × Nat)) : (scan ethaddress rs i oldest).1 =
      (rs.findIdx? fun r => r.ethaddress = ethaddress).map (· + i) := by
  induction rs generalizing i oldest with
  | nil => rfl
  | cons r rs ih =>
    rw [scan, List.findIdx?_cons]
    by_cases h : r.ethaddress = ethaddress
    · simp [h]
    · simp [h, ih, Function.comp_def, Nat.add_comm, Nat.add_left_comm]

/- The first record with the latest time, or none in an empty list. -/
def IsLatest (rs : List MacMappingRecord) : Option (MacMappingRecord × Nat) → Prop
  | none => rs = []
  | some (r, i) =>
    rs[i]? = some r ∧ (∀ q ∈ rs.take i, q.time < r.time) ∧ ∀ q ∈ rs, q.time ≤ r.time

theorem isLatest_update {rs : List MacMappingRecord} {oldest : Option (MacMappingRecord × Nat)}
    (h : IsLatest rs oldest) (r : MacMappingRecord) :
    IsLatest (rs ++ [r]) (updateOldest oldest r rs.length) := by
  cases oldest with
  | none =>
    cases h
    simp [updateOldest, IsLatest]
  | some o =>
    obtain ⟨x, i⟩ := o
    obtain ⟨hat, hfront, hall⟩ := h
    obtain ⟨hlt, _⟩ := List.getElem?_eq_some_iff.mp hat
    rw [updateOldest]
    split_ifs with hnew
    · refine ⟨by simp, ?_, ?_⟩
      · rw [List.take_left]
        intro q hq
        exact Int.lt_of_le_of_lt (hall q hq) hnew
      · rw [List.forall_mem_append, List.forall_mem_singleton]
        exact ⟨fun q hq => Int.le_of_lt (Int.lt_of_le_of_lt (hall q hq) hnew), Int.le_refl _⟩
    · refine ⟨by rw [List.getElem?_append_left hlt, hat], ?_, ?_⟩
      · rw [List.take_append_of_le_length (Nat.le_of_lt hlt)]
        exact hfront
      · rw [List.forall_mem_append, List.forall_mem_singleton]
        exact ⟨hall, Int.not_lt.mp hnew⟩

theorem scan_latest {ethaddress : EthAddress} {rs : List MacMappingRecord}
    (hno : ∀ r ∈ rs, r.ethaddress ≠ ethaddress) {front : List MacMappingRecord}
    {oldest : Option (MacMappingRecord × Nat)} (h : IsLatest front oldest) :
    IsLatest (front ++ rs) (scan ethaddress rs front.length oldest).2 := by
  induction rs generalizing front oldest with
  | nil =>
    rw [List.append_nil]
    exact h
  | cons r rs ih =>
    rw [List.forall_mem_cons] at hno
    have hrest := ih hno.2 (isLatest_update h r)
    rw [List.append_assoc, List.length_append, List.length_singleton] at hrest
    rw [scan, if_neg hno.1]
    exact hrest

theorem findIdx_latest {rs : List MacMappingRecord} {r : MacMappingRecord} {i : Nat}
    (h : IsLatest rs (some (r, i))) :
    rs.findIdx (fun r => rs.all fun q => q.time ≤ r.time) = i ∧ i < rs.length := by
  obtain ⟨hat, hfront, hall⟩ := h
  obtain ⟨hlt, rfl⟩ := List.getElem?_eq_some_iff.mp hat
  refine ⟨(List.findIdx_eq hlt).mpr ⟨by simpa using hall, fun j hj => ?_⟩, hlt⟩
  have hj' : rs[j] ∈ rs.take i := List.mem_take_iff_getElem.mpr ⟨j, by omega, rfl⟩
  rw [List.all_eq_false]
  exact ⟨rs[i], List.getElem_mem hlt, by simpa using hfront _ hj'⟩

/- What a table holds after a record was put into place i. -/
def Placed (m m' : EthMappings) (i : Nat) (ethaddress : EthAddress) (ipv4 : Bool)
    (ipaddress : IpAddress) (now : Int) : Prop :=
  (∃ r, m'.live[i]? = some (assigned r ethaddress ipv4 ipaddress now)) ∧
    ∀ j, j ≠ i → m'.live[j]? = m.live[j]?

theorem placed_assign (m : EthMappings) {i : Nat} (hi : i < m.count) (ethaddress : EthAddress)
    (ipv4 : Bool) (ipaddress : IpAddress) (now : Int) :
    Placed m (m.assign i ethaddress ipv4 ipaddress now) i ethaddress ipv4 ipaddress now := by
  have hlen : i < m.records.length := by
    rw [m.length_records]
    exact Nat.lt_of_lt_of_le hi m.count_le
  constructor
  · refine ⟨m.records[i], ?_⟩
    simp [live, assign, hi, hlen]
  · intro j hj
    simp [live, assign, List.getElem?_take, List.getElem?_modify_ne _ _ (Ne.symm hj)]

theorem placed_grow (m : EthMappings) (h : m.count < maxMacIpMappings) (ethaddress : EthAddress)
    (ipv4 : Bool) (ipaddress : IpAddress) (now : Int) :
    Placed m ({ m with count := m.count + 1, count_le := h }.assign m.count ethaddress ipv4
      ipaddress now) m.count ethaddress ipv4 ipaddress now := by
  obtain ⟨hat, helse⟩ := placed_assign { m with count := m.count + 1, count_le := h }
    (Nat.lt_succ_self m.count) ethaddress ipv4 ipaddress now
  refine ⟨hat, fun j hj => (helse j hj).trans ?_⟩
  simp only [live, List.getElem?_take]
  by_cases hlt : j < m.count
  · rw [if_pos hlt, if_pos (by omega)]
  · rw [if_neg hlt, if_neg (by omega)]

/- Add for a machine that has a record. -/
theorem add_known {m : EthMappings} {ethaddress : EthAddress} {i : Nat}
    (h : (m.live.findIdx? fun r => r.ethaddress = ethaddress) = some i) (now : Int) (ipv4 : Bool)
    (ipaddress : IpAddress) :
    m.add now ethaddress ipv4 ipaddress = (m.assign i ethaddress ipv4 ipaddress now, true) := by
  have hfst := scan_fst ethaddress m.live 0 none
  rcases hscan : scan ethaddress m.live 0 none with ⟨target, oldest⟩
  rw [hscan, h] at hfst
  cases hfst
  rw [add, hscan]
  rfl

/- Add for a new machine while there is room. -/
theorem add_room {m : EthMappings} {ethaddress : EthAddress}
    (h : (m.live.findIdx? fun r => r.ethaddress = ethaddress) = none)
    (hroom : m.count < maxMacIpMappings) (now : Int) (ipv4 : Bool) (ipaddress : IpAddress) :
    m.add now ethaddress ipv4 ipaddress =
      ({ m with count := m.count + 1, count_le := hroom }.assign m.count ethaddress ipv4 ipaddress now,
        true) := by
  have hfst := scan_fst ethaddress m.live 0 none
  rcases hscan : scan ethaddress m.live 0 none with ⟨target, oldest⟩
  rw [hscan, h] at hfst
  cases hfst
  simp only [add, hscan, hroom, ↓reduceDIte]

/- Add for a new machine in a full table: the loop ends with the first of the latest records. -/
theorem add_full {m : EthMappings} {ethaddress : EthAddress}
    (h : (m.live.findIdx? fun r => r.ethaddress = ethaddress) = none)
    (hfull : ¬ m.count < maxMacIpMappings) (now : Int) (ipv4 : Bool) (ipaddress : IpAddress) :
    ∃ r i, IsLatest m.live (some (r, i)) ∧ m.add now ethaddress ipv4 ipaddress =
      if now - r.time > timeout then (m.assign i ethaddress ipv4 ipaddress now, true)
      else (m, false) := by
  have hfst := scan_fst ethaddress m.live 0 none
  have hno : ∀ r ∈ m.live, r.ethaddress ≠ ethaddress := by
    simpa using List.findIdx?_eq_none_iff.mp h
  have hlatest : IsLatest ([] ++ m.live) (scan ethaddress m.live 0 none).2 := scan_latest hno rfl
  rcases hscan : scan ethaddress m.live 0 none with ⟨target, oldest⟩
  rw [hscan, List.nil_append] at hlatest
  rw [hscan, h] at hfst
  cases hfst
  cases oldest with
  | none =>
    have hlength := m.length_live
    rw [hlatest, List.length_nil] at hlength
    rw [← hlength] at hfull
    exact absurd (by decide) hfull
  | some o =>
    obtain ⟨r, i⟩ := o
    refine ⟨r, i, hlatest, ?_⟩
    simp only [add, hscan, hfull, ↓reduceDIte]

/-- A call that returns true puts the record into the machine's slot; every other call leaves
the table as it is. -/
theorem add_placed (m : EthMappings) (now : Int) (ethaddress : EthAddress) (ipv4 : Bool)
    (ipaddress : IpAddress) :
    (m.add now ethaddress ipv4 ipaddress).2 = true ∧
        Placed m (m.add now ethaddress ipv4 ipaddress).1 (m.slot ethaddress) ethaddress ipv4
          ipaddress now ∨
      m.add now ethaddress ipv4 ipaddress = (m, false) := by
  rw [slot]
  cases hfind : m.live.findIdx? fun r => r.ethaddress = ethaddress with
  | some i =>
    left
    have hi := (List.findIdx?_eq_some_iff_getElem.mp hfind).1
    rw [length_live] at hi
    rw [add_known hfind]
    exact ⟨rfl, placed_assign m hi ethaddress ipv4 ipaddress now⟩
  | none =>
    by_cases hroom : m.count < maxMacIpMappings
    · left
      simp only [hroom, ↓reduceIte]
      rw [add_room hfind hroom]
      exact ⟨rfl, placed_grow m hroom ethaddress ipv4 ipaddress now⟩
    · obtain ⟨r, i, hlatest, hadd⟩ := add_full hfind hroom now ipv4 ipaddress
      obtain ⟨hslot, hi⟩ := findIdx_latest hlatest
      rw [length_live] at hi
      simp only [hroom, ↓reduceIte, hadd, hslot]
      by_cases hage : now - r.time > timeout
      · left
        rw [if_pos hage]
        exact ⟨rfl, placed_assign m hi ethaddress ipv4 ipaddress now⟩
      · right
        rw [if_neg hage]

theorem ne_of_lt_slot {m : EthMappings} {ethaddress : EthAddress} {j : Nat}
    (hj : j < m.slot ethaddress) {r : MacMappingRecord} (hr : m.live[j]? = some r) :
    r.ethaddress ≠ ethaddress := by
  rw [slot] at hj
  cases hfind : m.live.findIdx? fun r => r.ethaddress = ethaddress with
  | some i =>
    rw [hfind] at hj
    obtain ⟨_, _, hfront⟩ := List.findIdx?_eq_some_iff_getElem.mp hfind
    obtain ⟨hlt, rfl⟩ := List.getElem?_eq_some_iff.mp hr
    simpa using hfront j hj
  | none =>
    have hall := List.findIdx?_eq_none_iff.mp hfind r (List.mem_of_getElem? hr)
    simpa using hall

/- If nothing in front of place i satisfies q, the first hit satisfies it exactly when
   nothing in front of place i is a hit. -/
theorem find?_at_iff {α : Type} {p : α → Bool} {q : α → Prop} {l : List α} {i : Nat} {a : α}
    (ha : l[i]? = some a) (hp : p a = true) (hq : q a)
    (hfront : ∀ j < i, ∀ b, l[j]? = some b → ¬ q b) :
    (∃ b, l.find? p = some b ∧ q b) ↔ ∀ j < i, ∀ b, l[j]? = some b → p b = false := by
  induction l generalizing i with
  | nil => cases ha
  | cons x l ih =>
    cases i with
    | zero =>
      cases ha
      rw [List.find?_cons_of_pos hp]
      exact iff_of_true ⟨a, rfl, hq⟩ nofun
    | succ k =>
      have hfront' : ∀ j < k, ∀ b, l[j]? = some b → ¬ q b := fun j hj b hb =>
        hfront (j + 1) (Nat.succ_lt_succ hj) b hb
      cases hx : p x with
      | true =>
        rw [List.find?_cons_of_pos hx]
        apply iff_of_false
        · rintro ⟨b, hb, hqb⟩
          cases hb
          exact hfront 0 (Nat.succ_pos k) x rfl hqb
        · intro hall
          have hfalse := hall 0 (Nat.succ_pos k) x rfl
          rw [hx] at hfalse
          cases hfalse
      | false =>
        rw [List.find?_cons_of_neg (by simp [hx]), ih ha hfront']
        constructor
        · intro hall j hj b hb
          cases j with
          | zero =>
            cases hb
            exact hx
          | succ j => exact hall j (Nat.lt_of_succ_lt_succ hj) b hb
        · intro hall j hj b hb
          exact hall (j + 1) (Nat.succ_lt_succ hj) b hb

theorem hit_true (a : IpAddress) (r : MacMappingRecord) :
    hit a true r = false ↔ ¬ (r.ipv4 = true ∧ r.ipaddress.ipv4 = a.ipv4) := by
  simp [hit, @eq_comm _ a.ipv4]

/-- After an IPv4 address was recorded for a machine, looking it up gives this machine
exactly when no record in front of the machine's slot has the address. -/
theorem lookUp_add_iff {m : EthMappings} {now : Int} {ethaddress : EthAddress}
    {ipaddress a : IpAddress} (hadd : (m.add now ethaddress true ipaddress).2 = true)
    (ha : a.ipv4 = ipaddress.ipv4) :
    (∃ r, (m.add now ethaddress true ipaddress).1.lookUp a true = some r ∧
        r.ethaddress = ethaddress) ↔ m.ClearBefore ethaddress a := by
  obtain ⟨_, ⟨old, hat⟩, helse⟩ | hno := add_placed m now ethaddress true ipaddress
  · have hkept : ∀ j < m.slot ethaddress,
        (m.add now ethaddress true ipaddress).1.live[j]? = m.live[j]? :=
      fun j hj => helse j (Nat.ne_of_lt hj)
    have hhit : hit a true (assigned old ethaddress true ipaddress now) = true := by
      simp [hit, assigned, ha]
    rw [lookUp, find?_at_iff (q := fun r => r.ethaddress = ethaddress) hat hhit rfl]
    · constructor
      · intro hall j hj r hr
        rw [← hkept j hj] at hr
        exact (hit_true a r).mp (hall j hj r hr)
      · intro hall j hj r hr
        rw [hkept j hj] at hr
        exact (hit_true a r).mpr (hall j hj r hr)
    · intro j hj r hr
      rw [hkept j hj] at hr
      exact ne_of_lt_slot hj hr
  · rw [hno] at hadd
    cases hadd

def AllIpv4 (m : EthMappings) : Prop := ∀ r ∈ m.live, r.ipv4 = true

theorem allIpv4_add {m : EthMappings} (h : m.AllIpv4) (now : Int) (ethaddress : EthAddress)
    (ipaddress : IpAddress) : (m.add now ethaddress true ipaddress).1.AllIpv4 := by
  obtain ⟨_, ⟨old, hat⟩, helse⟩ | hno := add_placed m now ethaddress true ipaddress
  · intro r hr
    obtain ⟨j, hj⟩ := List.mem_iff_getElem?.mp hr
    by_cases hslot : j = m.slot ethaddress
    · rw [hslot, hat] at hj
      cases hj
      rfl
    · rw [helse j hslot] at hj
      exact h r (List.mem_of_getElem? hj)
  · rw [hno]
    exact h

theorem lookUp_ipv6 {m : EthMappings} (h : m.AllIpv4) (a : IpAddress) :
    m.lookUp a false = none := by
  apply List.find?_eq_none.mpr
  intro r hr
  simp [hit, h r hr]

end EthMappings

end DnsWrapper.Bookkeeping
