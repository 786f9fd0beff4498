import DnsWrapper.RedirectFamily

/-! The rules as a function from requests to actions, and what one call on the table does to
that function: which requests it concerns, and what becomes of them. Insertions are those that
append, or that are rejected. -/
namespace DnsWrapper.Shm
open NetCommon

namespace RuleList

/- The number of the rule that decides. -/
def deciding (l : RuleList) (input : Input) : Option Nat :=
  l.rules.findIdx? fun v => v.Matches input

def actionFor (l : RuleList) (input : Input) : Action := (l.choose input).act l.policy

theorem actionFor_eq (l : RuleList) (input : Input) : l.actionFor input =
    match l.rules.find? fun v => v.Matches input with
    | some v => v.action
    | none => l.policy.act input.ipv4 := by
  rw [actionFor, choose]
  cases l.rules.find? fun v => v.Matches input with
  | some v => exact act_ruleChoice v l.policy
  | none => exact act_policyChoice l.policy input.ipv4

theorem find_eq_none {rules : List RuleValue} {input : Input}
    (h : ∀ v ∈ rules, ¬ v.Matches input) : (rules.find? fun v => v.Matches input) = none := by
  simpa [List.find?_eq_none] using h

theorem actionFor_of_none {l : RuleList} {input : Input} (h : ∀ v ∈ l.rules, ¬ v.Matches input) :
    l.actionFor input = l.policy.act input.ipv4 := by
  rw [actionFor_eq, find_eq_none h]

theorem actionFor_of_first {l : RuleList} {input : Input} {pre post : List RuleValue}
    {v : RuleValue} (hl : l.rules = pre ++ v :: post) (hpre : ∀ u ∈ pre, ¬ u.Matches input)
    (hv : v.Matches input) : l.actionFor input = v.action := by
  have hfind : (l.rules.find? fun v => v.Matches input) = some v := by
    rw [hl, List.find?_append, find_eq_none hpre, Option.none_or]
    exact List.find?_cons_of_pos (decide_eq_true hv)
  rw [actionFor_eq, hfind]

theorem deciding_eq_none {l : RuleList} {input : Input} :
    l.deciding input = none ↔ ∀ v ∈ l.rules, ¬ v.Matches input := by
  simp [deciding, List.findIdx?_eq_none_iff]

theorem deciding_eq_some {l : RuleList} {input : Input} {i : Nat} :
    l.deciding input = some i ↔ ∃ pre v post, l.rules = pre ++ v :: post ∧ pre.length = i ∧
      (∀ u ∈ pre, ¬ u.Matches input) ∧ v.Matches input := by
  rw [deciding, List.findIdx?_eq_some_iff_getElem]
  constructor
  · rintro ⟨hi, hv, hpre⟩
    refine ⟨l.rules.take i, l.rules[i], l.rules.drop (i + 1), ?_, List.length_take_of_le hi.le, ?_,
      of_decide_eq_true hv⟩
    · rw [← List.drop_eq_getElem_cons hi, List.take_append_drop]
    · intro u hu
      obtain ⟨j, hj, rfl⟩ := List.mem_take_iff_getElem.mp hu
      simpa using hpre j (by omega)
  · rintro ⟨pre, v, post, hl, rfl, hpre, hv⟩
    have hlen : pre.length < l.rules.length := by
      rw [hl, List.length_append, List.length_cons]
      omega
    refine ⟨hlen, ?_, ?_⟩
    · simpa [hl] using hv
    · intro j hj
      have hj' := hpre pre[j] (List.getElem_mem hj)
      simpa [hl, List.getElem_append_left hj] using hj'

end RuleList

/- An insertion appends or is rejected. -/
def AppendsOrRejected (rd : RuleData) (c : Call) : Prop :=
  ∀ r index, c = .insertRule r index → index = rd.size ∨ ∃ rd', rd.exec c = some (rd', false)

namespace RuleList

def after (l : RuleList) : Call → RuleList
  | .insertRule r index => if index = l.rules.length then l.next (.appendRule r) else l
  | c => l.next c

/- What becomes of a request when the rule is appended. -/
def changedByAppend (l : RuleList) (r : Rule) (input : Input) : Option Action :=
  if l.bytes + r.bytes ≤ dataSize ∧ l.deciding input = none ∧ r.value.Matches input then
    some r.value.action
  else none

/- What becomes of a request with a call, if the call concerns it. -/
def changed (l : RuleList) (c : Call) (input : Input) : Option Action :=
  match c with
  | .appendRule r => l.changedByAppend r input
  | .insertRule r index => if index = l.rules.length then l.changedByAppend r input else none
  | .deleteRule index =>
    if l.deciding input = some index then
      some ({ l with rules := l.rules.drop (index + 1) }.actionFor input)
    else none
  | .clearRules => if l.deciding input = none then none else some (l.policy.act input.ipv4)
  | .setPolicy action targetIpv4 targetIpv6 =>
    if l.deciding input = none then some (Policy.act ⟨action, targetIpv4, targetIpv6⟩ input.ipv4)
    else none

theorem actionFor_append (l : RuleList) (r : Rule) (input : Input) :
    (l.next (.appendRule r)).actionFor input =
      (l.changedByAppend r input).getD (l.actionFor input) := by
  rw [next, changedByAppend]
  by_cases hfit : l.bytes + r.bytes ≤ dataSize
  · rw [if_pos hfit]
    cases hd : l.deciding input with
    | none =>
      have hnone := deciding_eq_none.mp hd
      by_cases hv : r.value.Matches input
      · rw [if_pos ⟨hfit, rfl, hv⟩, actionFor_of_first rfl hnone hv]
        rfl
      · rw [if_neg fun h => hv h.2.2, Option.getD_none, actionFor_of_none hnone, actionFor_of_none]
        rw [List.forall_mem_append, List.forall_mem_singleton]
        exact ⟨hnone, hv⟩
    | some i =>
      obtain ⟨pre, u, post, hl, _, hpre, hu⟩ := deciding_eq_some.mp hd
      have hl' : l.rules ++ [r.value] = pre ++ u :: (post ++ [r.value]) := by
        rw [hl, List.append_assoc, List.cons_append]
      rw [if_neg fun h => Option.some_ne_none i h.2.1, Option.getD_none,
        actionFor_of_first hl hpre hu, actionFor_of_first hl' hpre hu]
  · rw [if_neg hfit, if_neg fun h => hfit h.1, Option.getD_none]

/- A rule that does not decide can be taken out. -/
theorem actionFor_eraseIdx {l : RuleList} {i : Nat} {input : Input}
    (h : l.deciding input ≠ some i) :
    { l with rules := l.rules.eraseIdx i }.actionFor input = l.actionFor input := by
  cases hd : l.deciding input with
  | none =>
    have hnone := deciding_eq_none.mp hd
    rw [actionFor_of_none hnone, actionFor_of_none]
    exact fun v hv => hnone v (List.mem_of_mem_eraseIdx hv)
  | some j =>
    obtain ⟨pre, u, post, hl, rfl, hpre, hu⟩ := deciding_eq_some.mp hd
    rw [actionFor_of_first hl hpre hu]
    obtain hlt | rfl | hgt := Nat.lt_trichotomy i pre.length
    · have hl' : l.rules.eraseIdx i = pre.eraseIdx i ++ u :: post := by
        rw [hl, List.eraseIdx_append_of_lt_length hlt]
      exact actionFor_of_first hl' (fun v hv => hpre v (List.mem_of_mem_eraseIdx hv)) hu
    · exact absurd hd h
    · obtain ⟨k, hk⟩ : ∃ k, i - pre.length = k + 1 := ⟨i - pre.length - 1, by omega⟩
      have hl' : l.rules.eraseIdx i = pre ++ u :: post.eraseIdx k := by
        rw [hl, List.eraseIdx_append_of_length_le hgt.le, hk, List.eraseIdx_cons_succ]
      exact actionFor_of_first hl' hpre hu

/- Without the rule that decides, those behind it do. -/
theorem actionFor_eraseIdx_deciding {l : RuleList} {i : Nat} {input : Input}
    (h : l.deciding input = some i) : { l with rules := l.rules.eraseIdx i }.actionFor input =
      { l with rules := l.rules.drop (i + 1) }.actionFor input := by
  obtain ⟨pre, u, post, hl, rfl, hpre, _⟩ := deciding_eq_some.mp h
  have herase : l.rules.eraseIdx pre.length = pre ++ post := by
    rw [hl, List.eraseIdx_append_of_length_le (Nat.le_refl _), Nat.sub_self, List.eraseIdx_cons_zero]
  have hdrop : l.rules.drop (pre.length + 1) = post := by
    rw [hl, List.drop_append, List.drop_of_length_le (Nat.le_succ _), List.nil_append]
    simp
  rw [actionFor_eq, actionFor_eq]
  simp only [herase, hdrop]
  rw [List.find?_append, find_eq_none hpre, Option.none_or]

/-- A call changes the action for the requests it concerns, and for no other. -/
theorem actionFor_after (l : RuleList) (c : Call) (input : Input) :
    (l.after c).actionFor input = (l.changed c input).getD (l.actionFor input) := by
  cases c with
  | appendRule r => exact l.actionFor_append r input
  | insertRule r index =>
    rw [after, changed]
    by_cases hindex : index = l.rules.length
    · rw [if_pos hindex, if_pos hindex]
      exact l.actionFor_append r input
    · rw [if_neg hindex, if_neg hindex]
      rfl
  | deleteRule index =>
    have hafter : l.after (.deleteRule index) = { l with rules := l.rules.eraseIdx index } := rfl
    rw [hafter, changed]
    by_cases hd : l.deciding input = some index
    · rw [if_pos hd, actionFor_eraseIdx_deciding hd]
      rfl
    · rw [if_neg hd, actionFor_eraseIdx hd]
      rfl
  | clearRules =>
    have hclear : (l.after .clearRules).actionFor input = l.policy.act input.ipv4 :=
      actionFor_of_none (l := ⟨[], l.policy⟩) fun v hv => absurd hv List.not_mem_nil
    rw [hclear, changed]
    by_cases hd : l.deciding input = none
    · rw [if_pos hd, actionFor_of_none (deciding_eq_none.mp hd)]
      rfl
    · rw [if_neg hd]
      rfl
  | setPolicy action targetIpv4 targetIpv6 =>
    have hafter : l.after (.setPolicy action targetIpv4 targetIpv6) =
        { l with policy := ⟨action, targetIpv4, targetIpv6⟩ } := rfl
    rw [hafter, changed]
    cases hd : l.deciding input with
    | none =>
      have hnone := deciding_eq_none.mp hd
      rw [if_pos rfl, actionFor_of_none (l := ⟨l.rules, ⟨action, targetIpv4, targetIpv6⟩⟩) hnone]
      rfl
    | some i =>
      obtain ⟨pre, v, post, hl, _, hpre, hv⟩ := deciding_eq_some.mp hd
      rw [if_neg (Option.some_ne_none i), Option.getD_none, actionFor_of_first hl hpre hv]
      exact actionFor_of_first (l := ⟨l.rules, ⟨action, targetIpv4, targetIpv6⟩⟩) hl hpre hv

end RuleList

/-- One call, insertions that append included. -/
theorem Represents.after {rd : RuleData} {l : RuleList} (h : Represents rd l) {c : Call}
    (hc : AppendsOrRejected rd c) :
    ∃ rd' o, rd.exec c = some (rd', o) ∧ Represents rd' (l.after c) := by
  have hother : ¬ c.isInsert → ∃ rd' o, rd.exec c = some (rd', o) ∧ Represents rd' (l.next c) :=
    fun hno => h.step c fun hins => absurd hins hno
  cases c with
  | insertRule r index =>
    rw [RuleList.after]
    by_cases hindex : index = l.rules.length
    · rw [if_pos hindex, hindex, ← h.size_eq]
      obtain ⟨rd', hcall, hrep⟩ := h.append r
      exact ⟨rd', _, hcall, hrep⟩
    · rw [if_neg hindex]
      obtain hend | ⟨rd', hcall⟩ := hc r index rfl
      · exact absurd (hend.trans h.size_eq) hindex
      · obtain ⟨_, rfl⟩ := h.insert_false_iff.mp hcall
        exact ⟨_, false, hcall, h⟩
  | appendRule r => exact hother id
  | deleteRule index => exact hother id
  | clearRules => exact hother id
  | setPolicy action targetIpv4 targetIpv6 => exact hother id

/-- What a call does to the decisions: the next evaluation takes the changed action for the
requests the call concerns, and for all others the one it took before. -/
theorem call_changes_decisions {rd : RuleData} {l : RuleList} (h : Represents rd l) (c : Call)
    (hc : AppendsOrRejected rd c) : ∃ rd' o, rd.exec c = some (rd', o) ∧
      Represents rd' (l.after c) ∧ ∀ input, rd'.evaluate input =
        match l.changed c input with
        | some action => some (true, [action])
        | none => rd.evaluate input := by
  obtain ⟨rd', o, hcall, hrep⟩ := h.after hc
  refine ⟨rd', o, hcall, hrep, fun input => ?_⟩
  have hafter := l.actionFor_after c input
  rw [RuleList.actionFor, RuleList.actionFor] at hafter
  rw [evaluate_choose hrep, hafter, evaluate_choose h]
  cases l.changed c input with
  | none => rfl
  | some action => rfl

theorem appendsOrRejected_delete (rd : RuleData) (index : Nat) :
    AppendsOrRejected rd (.deleteRule index) := fun _ _ h => by cases h

/-- The rule for the MAC address goes, and the redirection behind it decides. -/
theorem call_changes_decisions_sampleTable :
    AppendsOrRejected sampleTable (.deleteRule 0) ∧
      sampleList.deciding { sampleInput with ethaddr := sampleMachine } = some 0 ∧
      ∃ rd' o, sampleTable.exec (.deleteRule 0) = some (rd', o) ∧
        rd'.evaluate { sampleInput with ethaddr := sampleMachine } =
          some (true, [.redirect sampleIp.ipaddr]) := by
  obtain ⟨rd', o, hcall, _, heval⟩ := call_changes_decisions sampleTable_represents (.deleteRule 0)
    (appendsOrRejected_delete _ 0)
  refine ⟨appendsOrRejected_delete _ 0, by decide, rd', o, hcall, ?_⟩
  rw [heval]
  rfl

end DnsWrapper.Shm
