import DnsWrapper.RuleStore
import DnsWrapper.Runs

/-! Sequences of calls on the rule table, against a plain list of rules with a policy. -/
namespace DnsWrapper.Shm
open NetCommon

/- The public calls that change the table. -/
inductive Call where
  | appendRule (r : Rule)
  | insertRule (r : Rule) (index : Nat)
  | deleteRule (index : Nat)
  | clearRules
  | setPolicy (action : ActionType) (targetIpv4 targetIpv6 : IpAddress)

def Call.isInsert : Call → Prop
  | insertRule _ _ => True
  | _ => False

/- The table after a call, and what the call returns. -/
def RuleData.exec (rd : RuleData) : Call → Option (RuleData × Bool)
  | .appendRule r => (rd.appendRule r).map Prod.swap
  | .insertRule r index => (rd.insertRule r index).map Prod.swap
  | .deleteRule index => (rd.deleteRule index).map Prod.swap
  | .clearRules => some rd.clearRules.swap
  | .setPolicy action targetIpv4 targetIpv6 => some (rd.setPolicy action targetIpv4 targetIpv6).swap

/- An InsertRule call returns false. -/
def InsertRejected (rd : RuleData) (c : Call) : Prop :=
  c.isInsert → ∃ rd', rd.exec c = some (rd', false)

/- Every InsertRule among the calls is rejected. -/
def InsertsRejected (calls : List Call) : Prop :=
  Runs.Admits RuleData.exec InsertRejected RuleData.zeroed calls

/- The abstract table. -/
structure RuleList where
  rules : List RuleValue
  policy : Policy

namespace RuleList

def zeroed : RuleList := ⟨[], RuleData.zeroed.policy⟩

def bytes (l : RuleList) : Nat := (l.rules.map RuleValue.bytes).sum

def next (l : RuleList) : Call → RuleList
  | .appendRule r =>
    if l.bytes + r.bytes ≤ dataSize then { l with rules := l.rules ++ [r.value] } else l
  | .insertRule _ _ => l
  | .deleteRule index => { l with rules := l.rules.eraseIdx index }
  | .clearRules => { l with rules := [] }
  | .setPolicy action targetIpv4 targetIpv6 =>
    { l with policy := ⟨action, targetIpv4, targetIpv6⟩ }

/- There is no place for the insertion. -/
def RejectsInsert (l : RuleList) : Call → Prop
  | .insertRule r index => l.rules.length < index ∨ dataSize < l.bytes + r.bytes
  | _ => True

end RuleList

/- The array stores the rules of the list, and the policies are the same. -/
def Represents (rd : RuleData) (l : RuleList) : Prop :=
  ∃ rules, rd.Stores rules ∧ rules.map Rule.value = l.rules ∧ rd.policy = l.policy

theorem bytes_of_values {rules : List Rule} {l : RuleList} (h : rules.map Rule.value = l.rules) :
    l.bytes = (encodeAll rules).length := by
  rw [RuleList.bytes, ← h, length_encodeAll, List.map_map]
  congr 2
  funext r
  exact r.bytes_value

theorem zeroed_represents : Represents RuleData.zeroed RuleList.zeroed :=
  ⟨[], RuleData.zeroed_stores, rfl, rfl⟩

namespace Represents
variable {rd : RuleData} {l : RuleList}

theorem read (h : Represents rd l) : readRules rd.data rd.size 0 = some (l.rules, l.bytes) := by
  obtain ⟨rules, hs, hv, _⟩ := h
  rw [hs.read, hv, bytes_of_values hv]

theorem bytes_le (h : Represents rd l) : l.bytes ≤ dataSize := by
  obtain ⟨rules, hs, hv, _⟩ := h
  rw [bytes_of_values hv]
  exact hs.length_le

theorem size_eq (h : Represents rd l) : rd.size = l.rules.length := by
  obtain ⟨rules, hs, hv, _⟩ := h
  rw [hs.size_eq, ← hv, List.length_map]

theorem policy_eq (h : Represents rd l) : rd.policy = l.policy := by
  obtain ⟨_, _, _, hp⟩ := h
  exact hp

theorem append (h : Represents rd l) (r : Rule) :
    ∃ rd', rd.exec (.appendRule r) = some (rd', decide (l.bytes + r.bytes ≤ dataSize)) ∧
      Represents rd' (l.next (.appendRule r)) := by
  obtain ⟨rules, hs, hv, hp⟩ := h
  have hlen := bytes_of_values hv
  by_cases hfit : l.bytes + r.bytes ≤ dataSize
  · obtain ⟨rd', hcall, hp', hs'⟩ := RuleData.appendRule_fits hs (hlen ▸ hfit)
    refine ⟨rd', ?_, rules ++ [r], hs', ?_, ?_⟩
    · rw [RuleData.exec, hcall, decide_eq_true hfit]
      rfl
    · rw [RuleList.next, if_pos hfit, List.map_append, hv]
      rfl
    · rw [RuleList.next, if_pos hfit, hp', hp]
  · have hcall := RuleData.appendRule_full hs (r := r) (by omega)
    refine ⟨rd, ?_, rules, hs, ?_, ?_⟩
    · rw [RuleData.exec, hcall, decide_eq_false hfit]
      rfl
    · rw [RuleList.next, if_neg hfit, hv]
    · rw [RuleList.next, if_neg hfit, hp]

theorem delete (h : Represents rd l) (index : Nat) :
    ∃ rd', rd.exec (.deleteRule index) = some (rd', decide (index < rd.size)) ∧
      Represents rd' (l.next (.deleteRule index)) := by
  obtain ⟨rules, hs, hv, hp⟩ := h
  by_cases hi : index < rules.length
  · obtain ⟨rd', hcall, hp', hs'⟩ := RuleData.deleteRule_stores hs hi
    refine ⟨rd', ?_, rules.eraseIdx index, hs', ?_, ?_⟩
    · rw [RuleData.exec, hcall, hs.size_eq, decide_eq_true hi]
      rfl
    · rw [RuleList.next, ← hv, List.eraseIdx_map]
    · rw [RuleList.next, hp', hp]
  · have hcall := RuleData.deleteRule_rejected hs (Nat.not_lt.mp hi)
    refine ⟨rd, ?_, rules, hs, ?_, hp⟩
    · rw [RuleData.exec, hcall, hs.size_eq, decide_eq_false hi]
      rfl
    · rw [RuleList.next, ← hv, List.eraseIdx_of_length_le (by rw [List.length_map]; omega)]

/- Which insertions are rejected, and that they change nothing. -/
theorem insert_false_iff (h : Represents rd l) {rd' : RuleData} {r : Rule} {index : Nat} :
    rd.exec (.insertRule r index) = some (rd', false) ↔
      (l.rules.length < index ∨ dataSize < l.bytes + r.bytes) ∧ rd' = rd := by
  obtain ⟨rules, hs, hv, _⟩ := h
  have hr : RuleData.Rejects rules r index ↔
      l.rules.length < index ∨ dataSize < l.bytes + r.bytes := by
    rw [RuleData.Rejects, bytes_of_values hv, ← hv, List.length_map]
  rw [← hr]
  constructor
  · intro hcall
    obtain ⟨⟨o, rd₁⟩, hins, heq⟩ := Option.map_eq_some_iff.mp hcall
    cases heq
    have hrej := RuleData.insertRule_false hs hins
    rw [RuleData.insertRule_rejected hs hrej] at hins
    cases hins
    exact ⟨hrej, rfl⟩
  · rintro ⟨hrej, rfl⟩
    rw [RuleData.exec, RuleData.insertRule_rejected hs hrej]
    rfl

/- One call: it is defined, and the table goes on representing the list. -/
theorem step (h : Represents rd l) (c : Call) (hc : InsertRejected rd c) :
    ∃ rd' o, rd.exec c = some (rd', o) ∧ Represents rd' (l.next c) := by
  cases c with
  | appendRule r =>
    obtain ⟨rd', hcall, hrep⟩ := h.append r
    exact ⟨rd', _, hcall, hrep⟩
  | insertRule r index =>
    obtain ⟨rd', hcall⟩ := hc trivial
    obtain ⟨_, rfl⟩ := h.insert_false_iff.mp hcall
    exact ⟨_, false, hcall, h⟩
  | deleteRule index =>
    obtain ⟨rd', hcall, hrep⟩ := h.delete index
    exact ⟨rd', _, hcall, hrep⟩
  | clearRules =>
    obtain ⟨rules, hs, _, hp⟩ := h
    exact ⟨_, true, rfl, [], ⟨rfl, hs.data_length, List.nil_prefix⟩, rfl, hp⟩
  | setPolicy action targetIpv4 targetIpv6 =>
    obtain ⟨rules, hs, hv, _⟩ := h
    exact ⟨_, true, rfl, rules, ⟨hs.size_eq, hs.data_length, hs.encoded⟩, hv, rfl⟩

theorem rejected (h : Represents rd l) {c : Call} (hc : l.RejectsInsert c) :
    InsertRejected rd c := by
  intro hins
  cases c with
  | insertRule r index => exact ⟨rd, h.insert_false_iff.mpr ⟨hc, rfl⟩⟩
  | _ => cases hins

/- A call that returns false changed nothing. -/
theorem unchanged (h : Represents rd l) {c : Call} {rd' : RuleData}
    (hcall : rd.exec c = some (rd', false)) : rd' = rd := by
  cases c with
  | appendRule r =>
    have hins : rd.exec (.insertRule r rd.size) = some (rd', false) := hcall
    exact (h.insert_false_iff.mp hins).2
  | insertRule r index => exact (h.insert_false_iff.mp hcall).2
  | deleteRule index =>
    obtain ⟨rules, hs, _, _⟩ := h
    by_cases hi : index < rules.length
    · obtain ⟨rd₁, hdel, _⟩ := RuleData.deleteRule_stores hs hi
      rw [RuleData.exec, hdel] at hcall
      cases hcall
    · rw [RuleData.exec, RuleData.deleteRule_rejected hs (Nat.not_lt.mp hi)] at hcall
      cases hcall
      rfl
  | clearRules => cases hcall
  | setPolicy action targetIpv4 targetIpv6 => cases hcall

end Represents

theorem represents_calls {calls : List Call} (hcalls : ∀ c ∈ calls, ¬ c.isInsert) :
    ∃ rd outs, Runs.run RuleData.exec RuleData.zeroed calls = some (rd, outs) ∧
      Represents rd (calls.foldl RuleList.next RuleList.zeroed) := by
  have hadmits : InsertsRejected calls :=
    Runs.admits_of_forall (fun c hc _ hins => absurd hins (hcalls c hc)) RuleData.zeroed
  exact Runs.run_simulates (fun _ _ c h hc => h.step c hc) zeroed_represents hadmits

/-- After any calls on a zeroed table, with every insertion among them rejected: none of
them has left the array, the rules read from it are those of the list, and the next call
is accepted or rejected as the list says, with nothing changed when it is rejected. -/
theorem calls_refine_list (calls : List Call) (hr : InsertsRejected calls) :
    ∃ rd outs, Runs.run RuleData.exec RuleData.zeroed calls = some (rd, outs) ∧
      let l := calls.foldl RuleList.next RuleList.zeroed
      readRules rd.data rd.size 0 = some (l.rules, l.bytes) ∧ rd.size = l.rules.length ∧
      rd.policy = l.policy ∧ l.bytes ≤ dataSize ∧ rd.data.length = dataSize ∧
      (∀ r, ∃ rd', rd.exec (.appendRule r) =
        some (rd', decide (l.bytes + r.bytes ≤ dataSize))) ∧
      (∀ index, ∃ rd', rd.exec (.deleteRule index) = some (rd', decide (index < rd.size))) ∧
      ∀ c rd', rd.exec c = some (rd', false) → rd' = rd := by
  obtain ⟨rd, outs, hrun, h⟩ := Runs.run_simulates (fun _ _ c h hc => h.step c hc)
    zeroed_represents hr
  refine ⟨rd, outs, hrun, h.read, h.size_eq, h.policy_eq, h.bytes_le, ?_, ?_, ?_, ?_⟩
  · obtain ⟨_, hs, _, _⟩ := h
    exact hs.data_length
  · intro r
    obtain ⟨rd', hcall, _⟩ := h.append r
    exact ⟨rd', hcall⟩
  · intro index
    obtain ⟨rd', hcall, _⟩ := h.delete index
    exact ⟨rd', hcall⟩
  · intro c rd' hcall
    exact h.unchanged hcall

/- Calls that append, delete and set the policy, and one insertion that is rejected. -/
def sampleCalls : List Call :=
  [.appendRule sampleRedirect, .insertRule sampleEth 2, .appendRule sampleEth, .deleteRule 0,
    .deleteRule 5, .setPolicy .redirect sampleIp.ipaddr sampleIp.ipaddr]

theorem sampleCalls_rejected : InsertsRejected sampleCalls := by
  refine Runs.admits_of_simulates (fun _ _ c h hc => h.step c hc)
    (fun _ _ _ h hc => h.rejected hc) zeroed_represents ?_
  simp [sampleCalls, Runs.Admits, RuleList.RejectsInsert]
  decide

theorem calls_refine_list_sampleCalls :
    InsertsRejected sampleCalls ∧
      ∃ rd outs, Runs.run RuleData.exec RuleData.zeroed sampleCalls = some (rd, outs) ∧
        readRules rd.data rd.size 0 = some ([sampleEth.value], 14) := by
  obtain ⟨rd, outs, hrun, hread, _⟩ := calls_refine_list sampleCalls sampleCalls_rejected
  exact ⟨sampleCalls_rejected, rd, outs, hrun, hread⟩

end DnsWrapper.Shm
