import DnsWrapper.EthMappings
import DnsWrapper.RuleEvaluate
import DnsWrapper.Runs

/-! The table of machines under any sequence of Add calls: one record for a machine, and the
rest of the table as it was. Which record a full table gives up is another matter: the loop
of Add keeps the record with the latest time where it means to keep the oldest. -/
namespace DnsWrapper.Bookkeeping
open NetCommon Shm

namespace EthMappings

section Full
variable {m : EthMappings} {ethaddress : EthAddress}

/- Each record was refreshed within the last five seconds. -/
def Recent (m : EthMappings) (now : Int) : Prop := ∀ r ∈ m.live, now - r.time ≤ timeout

/-- A full table is kept if it is recent; else its oldest record is overwritten. -/
def GivesUpOldest (m : EthMappings) (now : Int) (ethaddress : EthAddress) (ipv4 : Bool)
    (ipaddress : IpAddress) : Prop :=
  (m.add now ethaddress ipv4 ipaddress = (m, false) ↔ m.Recent now) ∧
    (¬ m.Recent now → ∃ i r, m.live[i]? = some r ∧ (∀ q ∈ m.live, r.time ≤ q.time) ∧
      m.add now ethaddress ipv4 ipaddress = (m.assign i ethaddress ipv4 ipaddress now, true))

/- The record of a new machine shows where it was put. -/
theorem assign_inj (hno : ∀ r ∈ m.live, r.ethaddress ≠ ethaddress) {i j : Nat} (hi : i < m.count)
    (hj : j < m.count) {ipv4 : Bool} {ipaddress : IpAddress} {now : Int}
    (h : m.assign i ethaddress ipv4 ipaddress now = m.assign j ethaddress ipv4 ipaddress now) :
    i = j := by
  by_contra hne
  obtain ⟨⟨r, hat⟩, _⟩ := placed_assign m hi ethaddress ipv4 ipaddress now
  obtain ⟨_, helse⟩ := placed_assign m hj ethaddress ipv4 ipaddress now
  rw [h, helse i hne] at hat
  exact hno _ (List.mem_of_getElem? hat) rfl

theorem lt_count_of_live {i : Nat} {r : MacMappingRecord} (h : m.live[i]? = some r) : i < m.count := by
  rw [← m.length_live]
  exact (List.getElem?_eq_some_iff.mp h).1

theorem findIdx?_of_absent (hno : ∀ r ∈ m.live, r.ethaddress ≠ ethaddress) :
    (m.live.findIdx? fun r => r.ethaddress = ethaddress) = none := by
  simpa [List.findIdx?_eq_none_iff] using hno

/- The record that is overwritten is one with the latest time; if it has the smallest too, all
   times are the same. -/
theorem sameTime_of_givesUpOldest (hfull : m.count = maxMacIpMappings)
    (hno : ∀ r ∈ m.live, r.ethaddress ≠ ethaddress) {now : Int} {ipv4 : Bool}
    {ipaddress : IpAddress} (h : m.GivesUpOldest now ethaddress ipv4 ipaddress)
    (hold : ¬ m.Recent now) : ∀ r ∈ m.live, ∀ q ∈ m.live, r.time = q.time := by
  obtain ⟨r, i, ⟨hat, _, hlatest⟩, hadd⟩ :=
    add_full (findIdx?_of_absent hno) (by rw [hfull]; exact Nat.lt_irrefl _) now ipv4 ipaddress
  obtain ⟨j, o, hj, hmin, heq⟩ := h.2 hold
  by_cases hage : now - r.time > timeout
  · rw [hadd, if_pos hage] at heq
    have hij : i = j :=
      assign_inj hno (lt_count_of_live hat) (lt_count_of_live hj) (Prod.mk.inj heq).1
    subst hij
    rw [hat] at hj
    cases hj
    intro p hp q hq
    have hple := hlatest p hp
    have hqle := hlatest q hq
    have hpge := hmin p hp
    have hqge := hmin q hq
    omega
  · rw [hadd, if_neg hage] at heq
    cases (Prod.mk.inj heq).2

theorem givesUpOldest_of_recent (hfull : m.count = maxMacIpMappings)
    (hno : ∀ r ∈ m.live, r.ethaddress ≠ ethaddress) {now : Int} (h : m.Recent now) (ipv4 : Bool)
    (ipaddress : IpAddress) : m.GivesUpOldest now ethaddress ipv4 ipaddress := by
  obtain ⟨r, i, ⟨hat, _, _⟩, hadd⟩ :=
    add_full (findIdx?_of_absent hno) (by rw [hfull]; exact Nat.lt_irrefl _) now ipv4 ipaddress
  have hyoung := h r (List.mem_of_getElem? hat)
  rw [if_neg (by omega)] at hadd
  exact ⟨iff_of_true hadd h, fun hold => absurd h hold⟩

theorem givesUpOldest_of_sameTime (hfull : m.count = maxMacIpMappings)
    (hno : ∀ r ∈ m.live, r.ethaddress ≠ ethaddress)
    (hsame : ∀ r ∈ m.live, ∀ q ∈ m.live, r.time = q.time) {now : Int} (hold : ¬ m.Recent now)
    (ipv4 : Bool) (ipaddress : IpAddress) : m.GivesUpOldest now ethaddress ipv4 ipaddress := by
  obtain ⟨r, i, ⟨hat, _, _⟩, hadd⟩ :=
    add_full (findIdx?_of_absent hno) (by rw [hfull]; exact Nat.lt_irrefl _) now ipv4 ipaddress
  have hr := List.mem_of_getElem? hat
  have hage : now - r.time > timeout := by
    by_contra hyoung
    apply hold
    intro q hq
    rw [hsame q hq r hr]
    omega
  rw [if_pos hage] at hadd
  refine ⟨⟨fun heq => ?_, fun hrecent => absurd hrecent hold⟩, fun _ => ⟨i, r, hat, ?_, hadd⟩⟩
  · rw [hadd] at heq
    cases (Prod.mk.inj heq).2
  · intro q hq
    rw [hsame r hr q hq]

/-- A full table gives up its oldest record for a new machine exactly when it need not give up
any, or when all its records are of the same time. -/
theorem givesUpOldest_iff (m : EthMappings) (hfull : m.count = maxMacIpMappings)
    (ethaddress : EthAddress) (hno : ∀ r ∈ m.live, r.ethaddress ≠ ethaddress) (now : Int)
    (ipv4 : Bool) (ipaddress : IpAddress) :
    m.GivesUpOldest now ethaddress ipv4 ipaddress ↔
      m.Recent now ∨ ∀ r ∈ m.live, ∀ q ∈ m.live, r.time = q.time := by
  by_cases hrecent : m.Recent now
  · exact iff_of_true (givesUpOldest_of_recent hfull hno hrecent ipv4 ipaddress) (.inl hrecent)
  · constructor
    · intro h
      exact .inr (sameTime_of_givesUpOldest hfull hno h hrecent)
    · rintro (h | hsame)
      · exact absurd h hrecent
      · exact givesUpOldest_of_sameTime hfull hno hsame hrecent ipv4 ipaddress

/- A hundred machines, one of them seen each second, and another one. -/
def seenEachSecond : EthMappings where
  count := maxMacIpMappings
  records := (List.range maxMacIpMappings).map fun k =>
    ⟨⟨#v[2, 0, 0, 0, 0, UInt8.ofNat k]⟩, true, ⟨Vector.replicate 16 0⟩, k⟩
  count_le := Nat.le_refl _
  length_records := by rw [List.length_map, List.length_range]

def otherMachine : EthAddress := ⟨#v[4, 0, 0, 0, 0, 0]⟩

theorem otherMachine_absent : ∀ r ∈ seenEachSecond.live, r.ethaddress ≠ otherMachine := by
  decide +kernel

/-- A minute after the last frame the machine seen last loses its record, not the first one. -/
theorem latest_given_up :
    seenEachSecond.count = maxMacIpMappings ∧
      (∀ r ∈ seenEachSecond.live, r.ethaddress ≠ otherMachine) ∧
      ((seenEachSecond.add 160 otherMachine true ⟨Vector.replicate 16 0⟩).1.live[99]?.map
        MacMappingRecord.ethaddress) = some otherMachine ∧
      ¬ seenEachSecond.GivesUpOldest 160 otherMachine true ⟨Vector.replicate 16 0⟩ := by
  let machine (k : Nat) : MacMappingRecord :=
    ⟨⟨#v[2, 0, 0, 0, 0, UInt8.ofNat k]⟩, true, ⟨Vector.replicate 16 0⟩, k⟩
  have hfirst : machine 0 ∈ seenEachSecond.live := by decide +kernel
  have hlast : machine 99 ∈ seenEachSecond.live := by decide +kernel
  have hold : ¬ seenEachSecond.Recent 160 := fun h => absurd (h _ hfirst) (by decide)
  refine ⟨rfl, otherMachine_absent, by decide +kernel, ?_⟩
  intro h
  have hsame := sameTime_of_givesUpOldest rfl otherMachine_absent h hold _ hfirst _ hlast
  exact absurd hsame (by decide)

theorem givesUpOldest_iff_seenEachSecond :
    seenEachSecond.count = maxMacIpMappings ∧
      (seenEachSecond.GivesUpOldest 160 otherMachine true ⟨Vector.replicate 16 0⟩ ↔
        seenEachSecond.Recent 160 ∨
          ∀ r ∈ seenEachSecond.live, ∀ q ∈ seenEachSecond.live, r.time = q.time) :=
  ⟨rfl, givesUpOldest_iff seenEachSecond rfl otherMachine otherMachine_absent 160 true _⟩

end Full

section Calls
variable {m m' : EthMappings} {now : Int} {ethaddress : EthAddress} {ipv4 : Bool}
  {ipaddress : IpAddress}

/- One call of Add, with the clock it reads. -/
structure Sighting where
  now : Int
  ethaddress : EthAddress
  ipv4 : Bool
  ipaddress : IpAddress

def step (m : EthMappings) (c : Sighting) : Option (EthMappings × Bool) :=
  some (m.add c.now c.ethaddress c.ipv4 c.ipaddress)

/-- No two records hold the same MAC. -/
def Distinct (m : EthMappings) : Prop :=
  ∀ (i j : Nat) (r q : MacMappingRecord), m.live[i]? = some r → m.live[j]? = some q →
    r.ethaddress = q.ethaddress → i = j

/-- After a call that returned true: place i holds the one record of the machine, and every
other place holds what it held. If place i was that of another machine, the table was full. -/
structure Recorded (m m' : EthMappings) (now : Int) (ethaddress : EthAddress) (ipv4 : Bool)
    (ipaddress : IpAddress) (i : Nat) (r : MacMappingRecord) : Prop where
  place : m'.live[i]? = some r
  machine : r.ethaddress = ethaddress
  family : r.ipv4 = ipv4
  address : SameAddress ipv4 r.ipaddress ipaddress
  time : r.time = now
  only : ∀ j q, m'.live[j]? = some q → q.ethaddress = ethaddress → j = i
  others : ∀ j, j ≠ i → m'.live[j]? = m.live[j]?
  overwritten : ∀ q, m.live[i]? = some q → q.ethaddress ≠ ethaddress → m.count = maxMacIpMappings

theorem slot_of_live (hd : m.Distinct) {j : Nat} {r : MacMappingRecord} (hj : m.live[j]? = some r)
    (hr : r.ethaddress = ethaddress) : m.slot ethaddress = j := by
  rw [slot]
  cases hfind : m.live.findIdx? fun r => r.ethaddress = ethaddress with
  | some i =>
    obtain ⟨hlt, hmachine, _⟩ := List.findIdx?_eq_some_iff_getElem.mp hfind
    have hi : m.live[i]? = some m.live[i] := List.getElem?_eq_getElem hlt
    exact hd i j _ r hi hj ((of_decide_eq_true hmachine).trans hr.symm)
  | none =>
    have hno := List.findIdx?_eq_none_iff.mp hfind r (List.mem_of_getElem? hj)
    simp [hr] at hno

theorem full_of_slot {q : MacMappingRecord} (hq : m.live[m.slot ethaddress]? = some q)
    (hne : q.ethaddress ≠ ethaddress) : m.count = maxMacIpMappings := by
  rw [slot] at hq
  cases hfind : m.live.findIdx? fun r => r.ethaddress = ethaddress with
  | some i =>
    rw [hfind] at hq
    obtain ⟨hlt, hmachine, _⟩ := List.findIdx?_eq_some_iff_getElem.mp hfind
    obtain ⟨_, rfl⟩ := List.getElem?_eq_some_iff.mp hq
    exact absurd (of_decide_eq_true hmachine) hne
  | none =>
    by_contra hroom
    have hlt : m.count < maxMacIpMappings := Nat.lt_of_le_of_ne m.count_le hroom
    simp only [hfind, hlt, if_true] at hq
    exact absurd (lt_count_of_live hq) (Nat.lt_irrefl _)

theorem sameAddress_assigned (r : MacMappingRecord) (ethaddress : EthAddress) (ipv4 : Bool)
    (ipaddress : IpAddress) (now : Int) :
    SameAddress ipv4 (assigned r ethaddress ipv4 ipaddress now).ipaddress ipaddress := by
  cases ipv4 with
  | true => exact (ipv4_eq_iff _ _).mp (IpAddress.ipv4_setIpv4 r.ipaddress ipaddress)
  | false => exact fun _ _ => rfl

theorem count_le_add (m : EthMappings) (now : Int) (ethaddress : EthAddress) (ipv4 : Bool)
    (ipaddress : IpAddress) : m.count ≤ (m.add now ethaddress ipv4 ipaddress).1.count := by
  cases hfind : m.live.findIdx? fun r => r.ethaddress = ethaddress with
  | some i =>
    rw [add_known hfind]
    exact Nat.le_refl _
  | none =>
    by_cases hroom : m.count < maxMacIpMappings
    · rw [add_room hfind hroom]
      exact Nat.le_succ _
    · obtain ⟨r, i, _, hadd⟩ := add_full hfind hroom now ipv4 ipaddress
      rw [hadd]
      split_ifs
      · exact Nat.le_refl _
      · exact Nat.le_refl _

theorem recorded_add (hd : m.Distinct) (h : m.add now ethaddress ipv4 ipaddress = (m', true)) :
    ∃ r, Recorded m m' now ethaddress ipv4 ipaddress (m.slot ethaddress) r := by
  have hplaced := add_placed m now ethaddress ipv4 ipaddress
  rw [h] at hplaced
  obtain ⟨_, ⟨old, hat⟩, helse⟩ | hno := hplaced
  · refine ⟨_, hat, rfl, rfl, sameAddress_assigned old ethaddress ipv4 ipaddress now, rfl, ?_, helse,
      fun q => full_of_slot⟩
    intro j q hj hq
    by_contra hne
    rw [helse j hne] at hj
    exact hne (slot_of_live hd hj hq).symm
  · cases (Prod.mk.inj hno).2

theorem unchanged_add (h : m.add now ethaddress ipv4 ipaddress = (m', false)) : m' = m := by
  obtain ⟨htrue, _⟩ | hno := add_placed m now ethaddress ipv4 ipaddress
  · rw [h] at htrue
    cases htrue
  · rw [h] at hno
    exact (Prod.mk.inj hno).1

theorem distinct_recorded (hd : m.Distinct) {i : Nat} {r : MacMappingRecord}
    (h : Recorded m m' now ethaddress ipv4 ipaddress i r) : m'.Distinct := by
  intro j k p q hj hk heq
  by_cases hji : j = i
  · rw [hji, h.place] at hj
    cases hj
    rw [hji]
    exact (h.only k q hk (heq.symm.trans h.machine)).symm
  · by_cases hki : k = i
    · rw [hki, h.place] at hk
      cases hk
      rw [hki]
      exact h.only j p hj (heq.trans h.machine)
    · rw [h.others j hji] at hj
      rw [h.others k hki] at hk
      exact hd j k p q hj hk heq

theorem distinct_step (m : EthMappings) (c : Sighting) (m' : EthMappings) (b : Bool)
    (hd : m.Distinct) (h : m.step c = some (m', b)) : m'.Distinct := by
  have hadd : m.add c.now c.ethaddress c.ipv4 c.ipaddress = (m', b) := Option.some.inj h
  cases b with
  | true =>
    obtain ⟨r, hr⟩ := recorded_add hd hadd
    exact distinct_recorded hd hr
  | false =>
    rw [unchanged_add hadd]
    exact hd

/-- After any calls of Add from the empty table no two records hold the same MAC, and the next
call either changes nothing and returns false, or returns true and leaves one record of the
machine, everything else but a record of a full table being what it was. -/
theorem add_keeps_table (empty : EthMappings) (hempty : empty.count = 0) (calls : List Sighting)
    (m : EthMappings) (outs : List Bool) (hrun : Runs.run step empty calls = some (m, outs)) :
    m.Distinct ∧ m.count ≤ maxMacIpMappings ∧ ∀ c m' b, m.step c = some (m', b) →
      m.count ≤ m'.count ∧ (b = false → m' = m) ∧
        (b = true → ∃ i r, Recorded m m' c.now c.ethaddress c.ipv4 c.ipaddress i r) := by
  have hstart : empty.Distinct := by
    intro i j r q hi
    have hlt := lt_count_of_live hi
    omega
  have hd := Runs.run_invariant distinct_step hstart hrun
  refine ⟨hd, m.count_le, ?_⟩
  intro c m' b h
  have hadd : m.add c.now c.ethaddress c.ipv4 c.ipaddress = (m', b) := Option.some.inj h
  refine ⟨?_, ?_, ?_⟩
  · have hcount := count_le_add m c.now c.ethaddress c.ipv4 c.ipaddress
    rw [hadd] at hcount
    exact hcount
  · rintro rfl
    exact unchanged_add hadd
  · rintro rfl
    obtain ⟨r, hr⟩ := recorded_add hd hadd
    exact ⟨_, r, hr⟩

def otherSighting : Sighting := ⟨160, otherMachine, true, ⟨Vector.replicate 16 10⟩⟩

theorem add_keeps_table_twice :
    ∃ m outs, Runs.run step noMachines [otherSighting] = some (m, outs) ∧ m.Distinct ∧
      ∃ m', m.step otherSighting = some (m', true) ∧ ∃ i r,
        Recorded m m' 160 otherMachine true ⟨Vector.replicate 16 10⟩ i r := by
  have hrun : Runs.run step noMachines [otherSighting] =
      some ((noMachines.add 160 otherMachine true ⟨Vector.replicate 16 10⟩).1, [true]) := rfl
  have hstep : (noMachines.add 160 otherMachine true ⟨Vector.replicate 16 10⟩).1.step otherSighting =
      some (_, true) := rfl
  obtain ⟨hd, _, hnext⟩ := add_keeps_table noMachines rfl [otherSighting] _ _ hrun
  exact ⟨_, _, hrun, hd, _, hstep, (hnext _ _ _ hstep).2.2 rfl⟩

end Calls
end EthMappings
end DnsWrapper.Bookkeeping
