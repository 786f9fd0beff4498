import Mathlib.Tactic.IntervalCases
import DnsWrapper.RuleCalls

/-! The evaluation of the rules for a request: the first rule that matches decides, the
policy when there is none. -/
namespace DnsWrapper.Shm
open ByteWord NetCommon

/- The fields of Input that Evaluate looks at. -/
structure Input where
  ipv4 : Bool
  ethaddr : EthAddress
  ipaddr : IpAddress

/- The call on the server, with the arguments that Evaluate chooses. -/
inductive Action where
  | resolve
  | redirect (target : IpAddress)
  deriving DecidableEq

/- The three places of the loop body with a continue; false is to continue. -/
def ipMatches (data : List UInt8) (r : RuleRef) (input : Input) : Option Bool :=
  if r.ruleType.hasIp then do
    let d ← r.ipd.bind (loadIp data)
    if d.ipv4 ≠ input.ipv4 then pure false
    else if d.ipv4 = true ∧ d.ipaddr.ipv4 ≠ input.ipaddr.ipv4 ∨
        d.ipv4 = false ∧ d.ipaddr.ipv6 ≠ input.ipaddr.ipv6 then pure false
    else pure true
  else pure true

def ethMatches (data : List UInt8) (r : RuleRef) (input : Input) : Option Bool :=
  if r.ruleType.hasEth then do
    let e ← r.eth.bind (loadEth data)
    if e.v ≠ input.ethaddr.v then pure false else pure true
  else pure true

def targetMatches (data : List UInt8) (r : RuleRef) (input : Input) : Option Bool :=
  if r.actionType = .redirect then do
    let target ← r.target.bind (loadIp data)
    if input.ipv4 ≠ target.ipv4 then pure false else pure true
  else pure true

def ruleMatches (data : List UInt8) (r : RuleRef) (input : Input) : Option Bool := do
  if ← ipMatches data r input then
    if ← ethMatches data r input then targetMatches data r input else pure false
  else pure false

def ruleAction (data : List UInt8) (r : RuleRef) : Option Action :=
  if r.actionType = .dns then some .resolve
  else do
    let target ← r.target.bind (loadIp data)
    pure (.redirect target.ipaddr)

def Policy.act (policy : Policy) (ipv4 : Bool) : Action :=
  if policy.action = .dns then .resolve
  else if ipv4 then .redirect policy.targetIpv4
  else .redirect policy.targetIpv6

namespace RuleData

/- The loop with k rules to go; the result is what Evaluate returns and the actions. -/
def evaluateFrom (rd : RuleData) (input : Input) : Nat → Nat → Option (Bool × List Action)
  | 0, _ => some (true, [rd.policy.act input.ipv4])
  | k + 1, t => do
    let (r, t) ← nextRule rd.data t
    if ← ruleMatches rd.data r input then
      let action ← ruleAction rd.data r
      pure (true, [action])
    else evaluateFrom rd input k t

def evaluate (rd : RuleData) (input : Input) : Option (Bool × List Action) :=
  rd.evaluateFrom input rd.size 0

end RuleData

/- How many bytes of the union an address of the family has. -/
def addressBytes (ipv4 : Bool) : Nat := if ipv4 then 4 else 16

def SameAddress (ipv4 : Bool) (a b : IpAddress) : Prop :=
  ∀ i : Fin 16, i.val < addressBytes ipv4 → a.v.get i = b.v.get i

theorem ipv4_eq_iff (a b : IpAddress) : a.ipv4 = b.ipv4 ↔ SameAddress true a b := by
  rw [IpAddress.ipv4, IpAddress.ipv4, join32_inj]
  constructor
  · rintro ⟨_, _, _, _⟩ ⟨i, hi⟩ hlt
    have hlt' : i < 4 := hlt
    interval_cases i <;> assumption
  · intro h
    exact ⟨h 3 (by decide), h 2 (by decide), h 1 (by decide), h 0 (by decide)⟩

theorem ipv6_eq_iff (a b : IpAddress) : a.ipv6 = b.ipv6 ↔ SameAddress false a b := by
  simp only [IpAddress.ipv6, Prod.mk.injEq, join32_inj]
  constructor
  · rintro ⟨⟨_, _, _, _⟩, ⟨_, _, _, _⟩, ⟨_, _, _, _⟩, _, _, _, _⟩ ⟨i, hi⟩ _
    interval_cases i <;> assumption
  · intro h
    have hall : ∀ i : Fin 16, a.v[i] = b.v[i] := fun i => h i i.isLt
    exact ⟨⟨hall 3, hall 2, hall 1, hall 0⟩, ⟨hall 7, hall 6, hall 5, hall 4⟩,
      ⟨hall 11, hall 10, hall 9, hall 8⟩, hall 15, hall 14, hall 13, hall 12⟩

namespace Subject

/- The parts of a rule that its type has. -/
def ipd : Subject → Option IpAddressData
  | ip d | ipAndEth d _ => some d
  | eth _ => none

def mac : Subject → Option EthAddress
  | eth e | ipAndEth _ e => some e
  | ip _ => none

theorem parts_of_ofParts {t : RuleType} {d : Option IpAddressData} {e : Option EthAddress}
    {s : Subject} (h : ofParts d e t = some s) :
    (t.hasIp = true → ∃ x, d = some x ∧ s.ipd = some x) ∧ (t.hasIp = false → s.ipd = none) ∧
      (t.hasEth = true → ∃ x, e = some x ∧ s.mac = some x) ∧
      (t.hasEth = false → s.mac = none) := by
  cases t <;> cases d <;> cases e <;> cases h <;>
    simp [RuleType.hasIp, RuleType.hasEth, ipd, mac]

end Subject

namespace RuleValue

/- What it is for a rule to match a request. -/
structure Matches (v : RuleValue) (input : Input) : Prop where
  ip : ∀ d, v.subject.ipd = some d →
    d.ipv4 = input.ipv4 ∧ SameAddress input.ipv4 d.ipaddr input.ipaddr
  mac : ∀ e, v.subject.mac = some e → e = input.ethaddr
  target : ∀ d, v.outcome = .redirect d → d.ipv4 = input.ipv4

def action (v : RuleValue) : Action :=
  match v.outcome with
  | .dns => .resolve
  | .redirect target => .redirect target.ipaddr

end RuleValue

section Matching
variable {data : List UInt8} {r : RuleRef} {v : RuleValue}

theorem load_parts (h : r.load data = some v) :
    Subject.ofParts (r.ipd.bind (loadIp data)) (r.eth.bind (loadEth data)) r.ruleType =
        some v.subject ∧
      Outcome.ofParts (r.target.bind (loadIp data)) r.actionType = some v.outcome := by
  obtain ⟨subject, hs, h⟩ := Option.bind_eq_some_iff.mp h
  obtain ⟨outcome, ho, h⟩ := Option.bind_eq_some_iff.mp h
  cases h
  exact ⟨hs, ho⟩

theorem ipMatches_spec (h : r.load data = some v) (input : Input) :
    ∃ b, ipMatches data r input = some b ∧ (b = true ↔ ∀ d, v.subject.ipd = some d →
      d.ipv4 = input.ipv4 ∧ SameAddress input.ipv4 d.ipaddr input.ipaddr) := by
  obtain ⟨hip, hnoip, _, _⟩ := Subject.parts_of_ofParts (load_parts h).1
  cases ht : r.ruleType.hasIp with
  | false => exact ⟨true, by simp [ipMatches, ht], by simp [hnoip ht]⟩
  | true =>
    obtain ⟨d, hd, hs⟩ := hip ht
    by_cases hf : d.ipv4 = input.ipv4
    · cases hi : input.ipv4 with
      | false =>
        rw [hi] at hf
        refine ⟨decide (d.ipaddr.ipv6 = input.ipaddr.ipv6), ?_, ?_⟩
        · by_cases he : d.ipaddr.ipv6 = input.ipaddr.ipv6 <;>
            simp [ipMatches, ht, hd, hf, hi, he]
        · simp [hs, hf, ipv6_eq_iff]
      | true =>
        rw [hi] at hf
        refine ⟨decide (d.ipaddr.ipv4 = input.ipaddr.ipv4), ?_, ?_⟩
        · by_cases he : d.ipaddr.ipv4 = input.ipaddr.ipv4 <;>
            simp [ipMatches, ht, hd, hf, hi, he]
        · simp [hs, hf, ipv4_eq_iff]
    · exact ⟨false, by simp [ipMatches, ht, hd, hf], by simp [hs, hf]⟩

theorem ethMatches_spec (h : r.load data = some v) (input : Input) :
    ∃ b, ethMatches data r input = some b ∧
      (b = true ↔ ∀ e, v.subject.mac = some e → e = input.ethaddr) := by
  obtain ⟨_, _, heth, hnoeth⟩ := Subject.parts_of_ofParts (load_parts h).1
  cases ht : r.ruleType.hasEth with
  | false => exact ⟨true, by simp [ethMatches, ht], by simp [hnoeth ht]⟩
  | true =>
    obtain ⟨e, he, hs⟩ := heth ht
    have hv : e = input.ethaddr ↔ e.v = input.ethaddr.v := by
      rw [EthAddress.mk.injEq]
    refine ⟨decide (e.v = input.ethaddr.v), ?_, by simp [hs, hv]⟩
    by_cases hev : e.v = input.ethaddr.v <;> simp [ethMatches, ht, he, hev]

theorem targetMatches_spec (h : r.load data = some v) (input : Input) :
    ∃ b, targetMatches data r input = some b ∧
      (b = true ↔ ∀ d, v.outcome = .redirect d → d.ipv4 = input.ipv4) := by
  have ho := (load_parts h).2
  cases ha : r.actionType with
  | dns =>
    rw [ha] at ho
    have hv : v.outcome = .dns := (Option.some.inj ho).symm
    exact ⟨true, by simp [targetMatches, ha], by simp [hv]⟩
  | redirect =>
    rw [ha] at ho
    obtain ⟨d, hd, hs⟩ := Option.map_eq_some_iff.mp ho
    refine ⟨decide (d.ipv4 = input.ipv4), ?_, by simp [← hs]⟩
    by_cases he : d.ipv4 = input.ipv4
    · simp [targetMatches, ha, hd, he]
    · simp [targetMatches, ha, hd, he, Ne.symm he]

/- The loop body goes past the continues exactly when the rule matches. -/
theorem ruleMatches_spec (h : r.load data = some v) (input : Input) :
    ∃ b, ruleMatches data r input = some b ∧ (b = true ↔ v.Matches input) := by
  obtain ⟨i, hi, hip⟩ := ipMatches_spec h input
  obtain ⟨e, he, hmac⟩ := ethMatches_spec h input
  obtain ⟨t, ht, htarget⟩ := targetMatches_spec h input
  refine ⟨i && (e && t), ?_, ?_⟩
  · cases i <;> cases e <;> simp [ruleMatches, hi, he, ht]
  · rw [Bool.and_eq_true, Bool.and_eq_true, hip, hmac, htarget]
    exact ⟨fun ⟨h₁, h₂, h₃⟩ => ⟨h₁, h₂, h₃⟩, fun ⟨h₁, h₂, h₃⟩ => ⟨h₁, h₂, h₃⟩⟩

theorem ruleAction_spec (h : r.load data = some v) : ruleAction data r = some v.action := by
  have ho := (load_parts h).2
  cases ha : r.actionType with
  | dns =>
    rw [ha] at ho
    have hv : v.outcome = .dns := (Option.some.inj ho).symm
    simp [ruleAction, ha, RuleValue.action, hv]
  | redirect =>
    rw [ha] at ho
    obtain ⟨d, hd, hs⟩ := Option.map_eq_some_iff.mp ho
    simp [ruleAction, ha, hd, RuleValue.action, ← hs]

end Matching

theorem readRules_nil {data : List UInt8} {k loc e : Nat}
    (h : readRules data k loc = some ([], e)) : k = 0 := by
  cases k with
  | zero => rfl
  | succ k =>
    obtain ⟨⟨ref, t⟩, _, h⟩ := Option.bind_eq_some_iff.mp h
    obtain ⟨v, _, h⟩ := Option.bind_eq_some_iff.mp h
    obtain ⟨⟨vs, t'⟩, _, h⟩ := Option.bind_eq_some_iff.mp h
    cases h

theorem readRules_cons {data : List UInt8} {k loc e : Nat} {v : RuleValue} {vs : List RuleValue}
    (h : readRules data k loc = some (v :: vs, e)) :
    ∃ j ref t, k = j + 1 ∧ nextRule data loc = some (ref, t) ∧ ref.load data = some v ∧
      readRules data j t = some (vs, e) := by
  cases k with
  | zero => cases h
  | succ j =>
    obtain ⟨⟨ref, t⟩, hnext, h⟩ := Option.bind_eq_some_iff.mp h
    obtain ⟨u, hload, h⟩ := Option.bind_eq_some_iff.mp h
    obtain ⟨⟨us, t'⟩, hrest, h⟩ := Option.bind_eq_some_iff.mp h
    cases h
    exact ⟨j, ref, t, rfl, hnext, hload, hrest⟩

section Evaluate
variable {rd : RuleData} {input : Input} {k t e : Nat}

/- One turn of the loop. -/
theorem evaluateFrom_match {v : RuleValue} {vs : List RuleValue}
    (h : readRules rd.data k t = some (v :: vs, e)) (hm : v.Matches input) :
    rd.evaluateFrom input k t = some (true, [v.action]) := by
  obtain ⟨j, ref, t', rfl, hnext, hload, _⟩ := readRules_cons h
  obtain ⟨b, hb, hiff⟩ := ruleMatches_spec hload input
  simp [RuleData.evaluateFrom, hnext, hb, hiff.mpr hm, ruleAction_spec hload]

theorem evaluateFrom_continue {v : RuleValue} {vs : List RuleValue}
    (h : readRules rd.data k t = some (v :: vs, e)) (hm : ¬ v.Matches input) :
    ∃ j t', readRules rd.data j t' = some (vs, e) ∧
      rd.evaluateFrom input k t = rd.evaluateFrom input j t' := by
  obtain ⟨j, ref, t', rfl, hnext, hload, hrest⟩ := readRules_cons h
  obtain ⟨b, hb, hiff⟩ := ruleMatches_spec hload input
  have hfalse : b = false := Bool.eq_false_iff.mpr fun hbt => hm (hiff.mp hbt)
  exact ⟨j, t', hrest, by simp [RuleData.evaluateFrom, hnext, hb, hfalse]⟩

/- The induction is on the rules that do not match. -/
theorem evaluateFrom_append {pre rest : List RuleValue}
    (h : readRules rd.data k t = some (pre ++ rest, e)) (hpre : ∀ u ∈ pre, ¬ u.Matches input) :
    ∃ j t', readRules rd.data j t' = some (rest, e) ∧
      rd.evaluateFrom input k t = rd.evaluateFrom input j t' := by
  induction pre generalizing k t with
  | nil => exact ⟨k, t, h, rfl⟩
  | cons v pre ih =>
    obtain ⟨j, t₁, hrest, heq⟩ := evaluateFrom_continue h (hpre v List.mem_cons_self)
    obtain ⟨j', t', hread, heq'⟩ := ih hrest fun u hu => hpre u (List.mem_cons_of_mem v hu)
    exact ⟨j', t', hread, heq.trans heq'⟩

end Evaluate

/-- Evaluate takes one action: that of the first rule that matches, whatever rules come
behind it; when no rule matches, it resolves or redirects as the policy says, to the target of the
family of the request. -/
theorem evaluate_first_match {rd : RuleData} {l : RuleList} (h : Represents rd l) (input : Input) :
    (∀ pre v post, l.rules = pre ++ v :: post → (∀ u ∈ pre, ¬ u.Matches input) →
      v.Matches input → rd.evaluate input = some (true, [v.action])) ∧
    ((∀ u ∈ l.rules, ¬ u.Matches input) →
      rd.evaluate input = some (true, [match l.policy.action, input.ipv4 with
        | .dns, _ => .resolve
        | .redirect, true => .redirect l.policy.targetIpv4
        | .redirect, false => .redirect l.policy.targetIpv6])) := by
  have hread := h.read
  constructor
  · intro pre v post hl hpre hv
    rw [hl] at hread
    obtain ⟨j, t, hrest, heq⟩ := evaluateFrom_append hread hpre
    rw [RuleData.evaluate, heq, evaluateFrom_match hrest hv]
  · intro hnone
    rw [← List.append_nil l.rules] at hread
    obtain ⟨j, t, hrest, heq⟩ := evaluateFrom_append hread hnone
    cases readRules_nil hrest
    rw [RuleData.evaluate, heq, RuleData.evaluateFrom, h.policy_eq, Policy.act]
    cases l.policy.action with
    | dns => rfl
    | redirect => cases input.ipv4 <;> rfl

/- A table with a rule for a MAC address in front of a redirection, and a request from the
   redirected client, whose union has other bytes behind the IPv4 address. -/
def sampleTable : RuleData where
  policy := RuleData.zeroed.policy
  size := 2
  data := encodeAll [sampleEth, sampleRedirect] ++ List.replicate (dataSize - 62) 7

def sampleInput : Input where
  ipv4 := true
  ethaddr := ⟨#v[2, 0, 0, 0, 0, 9]⟩
  ipaddr := ⟨#v[192, 168, 0, 7, 5, 5, 5, 5, 5, 5, 5, 5, 5, 5, 5, 5]⟩

theorem sampleTable_represents :
    Represents sampleTable ⟨[sampleEth.value, sampleRedirect.value], RuleData.zeroed.policy⟩ := by
  refine ⟨[sampleEth, sampleRedirect], ⟨rfl, ?_, List.prefix_append _ _⟩, rfl, rfl⟩
  have hlen : (encodeAll [sampleEth, sampleRedirect]).length = 62 := by decide
  rw [sampleTable, List.length_append, List.length_replicate, hlen]
  decide

/- The same table with a policy that redirects, and a client that has no rule. -/
def divertedTable : RuleData where
  policy := ⟨.redirect, sampleIp.ipaddr, ⟨Vector.replicate 16 9⟩⟩
  size := sampleTable.size
  data := sampleTable.data

def otherInput (ipv4 : Bool) : Input where
  ipv4 := ipv4
  ethaddr := ⟨#v[2, 0, 0, 0, 0, 9]⟩
  ipaddr := ⟨Vector.replicate 16 1⟩

theorem divertedTable_represents :
    Represents divertedTable ⟨[sampleEth.value, sampleRedirect.value], divertedTable.policy⟩ := by
  obtain ⟨rules, ⟨hsize, hlen, hprefix⟩, hrules, _⟩ := sampleTable_represents
  exact ⟨rules, ⟨hsize, hlen, hprefix⟩, hrules, rfl⟩

theorem otherInput_unmatched (ipv4 : Bool) :
    ∀ u ∈ [sampleEth.value, sampleRedirect.value], ¬ u.Matches (otherInput ipv4) := by
  rw [List.forall_mem_cons, List.forall_mem_singleton]
  constructor
  · intro hm
    exact absurd (hm.mac _ rfl) (by cases ipv4 <;> decide)
  · intro hm
    have hsame := (hm.ip _ rfl).2 0 (by cases ipv4 <;> decide)
    exact absurd hsame (by cases ipv4 <;> decide)

theorem evaluate_first_match_sampleTable :
    Represents sampleTable ⟨[sampleEth.value, sampleRedirect.value], RuleData.zeroed.policy⟩ ∧
      sampleTable.evaluate sampleInput = some (true, [.redirect sampleIp.ipaddr]) ∧
      Represents divertedTable ⟨[sampleEth.value, sampleRedirect.value], divertedTable.policy⟩ ∧
      divertedTable.evaluate (otherInput true) = some (true, [.redirect sampleIp.ipaddr]) ∧
      divertedTable.evaluate (otherInput false) =
        some (true, [.redirect ⟨Vector.replicate 16 9⟩]) := by
  refine ⟨sampleTable_represents, ?_, divertedTable_represents, ?_, ?_⟩
  · refine (evaluate_first_match sampleTable_represents sampleInput).1 [sampleEth.value]
      sampleRedirect.value [] rfl ?_ ⟨?_, ?_, ?_⟩
    · intro u hu hm
      rw [List.mem_singleton] at hu
      subst hu
      exact absurd (hm.mac _ rfl) (by decide)
    · rintro d ⟨⟩
      exact ⟨rfl, by unfold SameAddress; decide⟩
    · rintro e ⟨⟩
    · rintro d ⟨⟩
      rfl
  · exact (evaluate_first_match divertedTable_represents (otherInput true)).2
      (otherInput_unmatched true)
  · exact (evaluate_first_match divertedTable_represents (otherInput false)).2
      (otherInput_unmatched false)

end DnsWrapper.Shm
