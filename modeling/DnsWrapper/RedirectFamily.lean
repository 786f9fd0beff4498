import DnsWrapper.DnsServer
import DnsWrapper.RuleEvaluate

/-! Which target answers which question of a redirected packet. Evaluate compares the family
of the target with the one the client came over, the answer takes its bytes by the type of
the question; the two agree only if the client asks for addresses of its own family. -/
namespace DnsWrapper.Shm
open NetCommon Dns

instance (ipv4 : Bool) (a b : IpAddress) : Decidable (SameAddress ipv4 a b) :=
  inferInstanceAs (Decidable (∀ _ : Fin 16, _ → _))

namespace RuleValue

def targetOf (v : RuleValue) : Option IpAddressData :=
  match v.outcome with
  | .dns => none
  | .redirect d => some d

theorem matches_iff (v : RuleValue) (input : Input) : v.Matches input ↔
    (∀ d ∈ v.subject.ipd, d.ipv4 = input.ipv4 ∧ SameAddress input.ipv4 d.ipaddr input.ipaddr) ∧
      (∀ e ∈ v.subject.mac, e = input.ethaddr) ∧ ∀ d ∈ v.targetOf, d.ipv4 = input.ipv4 := by
  have htarget : (∀ d, v.outcome = .redirect d → d.ipv4 = input.ipv4) ↔
      ∀ d ∈ v.targetOf, d.ipv4 = input.ipv4 := by
    unfold targetOf
    cases v.outcome with
    | dns => simp
    | redirect d => simp
  rw [← htarget]
  exact ⟨fun h => ⟨h.ip, h.mac, h.target⟩, fun h => ⟨h.1, h.2.1, h.2.2⟩⟩

instance (v : RuleValue) (input : Input) : Decidable (v.Matches input) :=
  decidable_of_iff _ (v.matches_iff input).symm

end RuleValue

/- The decision of Evaluate with the place that the target comes from. -/
inductive Choice where
  | resolve
  | rule (target : IpAddressData)
  | policyIpv4
  | policyIpv6

namespace Choice

/- The action on the server. -/
def act (policy : Policy) : Choice → Action
  | resolve => .resolve
  | rule target => .redirect target.ipaddr
  | policyIpv4 => .redirect policy.targetIpv4
  | policyIpv6 => .redirect policy.targetIpv6

/- The family of the target: true is IPv4. -/
def family : Choice → Option Bool
  | resolve => none
  | rule target => some target.ipv4
  | policyIpv4 => some true
  | policyIpv6 => some false

theorem family_of_redirect {c : Choice} {policy : Policy} {target : IpAddress}
    (h : c.act policy = .redirect target) : ∃ ipv4, c.family = some ipv4 := by
  cases c with
  | resolve => cases h
  | rule d => exact ⟨d.ipv4, rfl⟩
  | policyIpv4 => exact ⟨true, rfl⟩
  | policyIpv6 => exact ⟨false, rfl⟩

end Choice

def RuleValue.choice (v : RuleValue) : Choice :=
  match v.outcome with
  | .dns => .resolve
  | .redirect d => .rule d

def Policy.choice (policy : Policy) (ipv4 : Bool) : Choice :=
  if policy.action = .dns then .resolve else if ipv4 then .policyIpv4 else .policyIpv6

def RuleList.choose (l : RuleList) (input : Input) : Choice :=
  match l.rules.find? fun v => v.Matches input with
  | some v => v.choice
  | none => l.policy.choice input.ipv4

theorem act_ruleChoice (v : RuleValue) (policy : Policy) : v.choice.act policy = v.action := by
  unfold RuleValue.choice RuleValue.action
  cases v.outcome with
  | dns => rfl
  | redirect d => rfl

theorem act_policyChoice (policy : Policy) (ipv4 : Bool) :
    (policy.choice ipv4).act policy = policy.act ipv4 := by
  unfold Policy.choice Policy.act
  cases policy.action with
  | dns => rfl
  | redirect =>
    cases ipv4 with
    | true => rfl
    | false => rfl

/-- Evaluate does what the first rule that matches says, else what the policy says. -/
theorem evaluate_choose {rd : RuleData} {l : RuleList} (h : Represents rd l) (input : Input) :
    rd.evaluate input = some (true, [(l.choose input).act l.policy]) := by
  have hread := h.read
  rw [RuleList.choose]
  cases hfind : l.rules.find? fun v => v.Matches input with
  | some v =>
    obtain ⟨hv, pre, post, hl, hpre⟩ := List.find?_eq_some_iff_append.mp hfind
    have hpre' : ∀ u ∈ pre, ¬ u.Matches input := by
      intro u hu
      simpa using hpre u hu
    rw [hl] at hread
    obtain ⟨j, t, hrest, heq⟩ := evaluateFrom_append hread hpre'
    rw [RuleData.evaluate, heq, evaluateFrom_match hrest (of_decide_eq_true hv), act_ruleChoice]
  | none =>
    have hnone : ∀ u ∈ l.rules, ¬ u.Matches input := by
      intro u hu
      simpa using List.find?_eq_none.mp hfind u hu
    rw [← List.append_nil l.rules] at hread
    obtain ⟨j, t, hrest, heq⟩ := evaluateFrom_append hread hnone
    cases readRules_nil hrest
    rw [RuleData.evaluate, heq, RuleData.evaluateFrom, h.policy_eq, act_policyChoice]

theorem family_ruleChoice {v : RuleValue} {input : Input} (hv : v.Matches input) {ipv4 : Bool}
    (h : v.choice.family = some ipv4) : ipv4 = input.ipv4 := by
  unfold RuleValue.choice at h
  cases ho : v.outcome with
  | dns =>
    rw [ho] at h
    cases h
  | redirect d =>
    rw [ho] at h
    cases h
    exact hv.target d ho

theorem family_policyChoice {policy : Policy} {ipv4 ipv4' : Bool}
    (h : (policy.choice ipv4).family = some ipv4') : ipv4' = ipv4 := by
  unfold Policy.choice at h
  cases ha : policy.action with
  | dns =>
    rw [ha] at h
    cases h
  | redirect =>
    rw [ha] at h
    cases ipv4 with
    | true =>
      cases h
      rfl
    | false =>
      cases h
      rfl

/-- The family of the target is the one the client came over. -/
theorem family_choose {l : RuleList} {input : Input} {ipv4 : Bool}
    (h : (l.choose input).family = some ipv4) : ipv4 = input.ipv4 := by
  unfold RuleList.choose at h
  cases hfind : l.rules.find? fun v => v.Matches input with
  | some v =>
    have hv : v.Matches input := by simpa using List.find?_some hfind
    rw [hfind] at h
    exact family_ruleChoice hv h
  | none =>
    rw [hfind] at h
    exact family_policyChoice h

/-- A questions are answered from an IPv4 target and AAAA questions from an IPv6 target, and
the answers do not depend on the bytes that an address of the target's family leaves open. -/
structure AnswersByFamily (ipv4 : Bool) (packet : DnsPacket) : Prop where
  a : ∀ q ∈ packet.questionList, q.type = qtA → ipv4 = true
  aaaa : ∀ q ∈ packet.questionList, q.type = qtAAAA → ipv4 = false
  unset : ∀ x y, SameAddress ipv4 x y →
    (updateRedirectResponse packet x).answerList = (updateRedirectResponse packet y).answerList

/-- The packet asks for no address of the family that the client did not come over. -/
def AsksOwnFamily (input : Input) (packet : DnsPacket) : Prop :=
  ∀ q ∈ packet.questionList,
    (input.ipv4 = true → q.type ≠ qtAAAA) ∧ (input.ipv4 = false → q.type ≠ qtA)

/- An answer reads only the bytes of the family of its question. -/
theorem redirectAnswer_congr {ipv4 : Bool} {x y : IpAddress} (h : SameAddress ipv4 x y)
    {q : DnsQuestion} (ha : q.type = qtA → ipv4 = true) (haaaa : q.type = qtAAAA → ipv4 = false) :
    redirectAnswer x q = redirectAnswer y q := by
  unfold redirectAnswer
  by_cases hq : q.type = qtA
  · rw [ha hq] at h
    rw [if_pos hq, if_pos hq, (ipv4_eq_iff x y).mpr h]
  rw [if_neg hq, if_neg hq]
  by_cases hq' : q.type = qtAAAA
  · rw [haaaa hq'] at h
    rw [if_pos hq', if_pos hq', (ipv6_eq_iff x y).mpr h]
  · rw [if_neg hq', if_neg hq']

theorem answers_congr {packet : DnsPacket} {x y : IpAddress}
    (h : ∀ q ∈ packet.questionList, redirectAnswer x q = redirectAnswer y q) :
    (updateRedirectResponse packet x).answerList =
      (updateRedirectResponse packet y).answerList := by
  have hmap : packet.questionList.map (redirectAnswer x) =
      packet.questionList.map (redirectAnswer y) := List.map_congr_left h
  rw [updateRedirectResponse_eq, updateRedirectResponse_eq, hmap]

theorem answersByFamily_iff (ipv4 : Bool) (packet : DnsPacket) :
    AnswersByFamily ipv4 packet ↔ ∀ q ∈ packet.questionList,
      (ipv4 = true → q.type ≠ qtAAAA) ∧ (ipv4 = false → q.type ≠ qtA) := by
  constructor
  · intro h q hq
    constructor
    · intro hf haaaa
      rw [h.aaaa q hq haaaa] at hf
      cases hf
    · intro hf ha
      rw [h.a q hq ha] at hf
      cases hf
  · intro h
    have ha : ∀ q ∈ packet.questionList, q.type = qtA → ipv4 = true := by
      intro q hq hqa
      by_contra hne
      exact (h q hq).2 (Bool.eq_false_iff.mpr hne) hqa
    have haaaa : ∀ q ∈ packet.questionList, q.type = qtAAAA → ipv4 = false := by
      intro q hq hqa
      by_contra hne
      exact (h q hq).1 (by simpa using hne) hqa
    refine ⟨ha, haaaa, ?_⟩
    intro x y hxy
    exact answers_congr fun q hq => redirectAnswer_congr hxy (ha q hq) (haaaa q hq)

/-- Whenever Evaluate answers through Redirect, the target is that of the decision, and all
questions are answered from a target of their family exactly when none of them asks for an
address of the family that the client did not come over. -/
theorem redirect_family_iff (rd : RuleData) (l : RuleList) (h : Represents rd l) (input : Input)
    (packet : DnsPacket) (target : IpAddress)
    (he : rd.evaluate input = some (true, [.redirect target])) :
    ∃ ipv4, (l.choose input).family = some ipv4 ∧ (l.choose input).act l.policy = .redirect target ∧
      (AnswersByFamily ipv4 packet ↔ AsksOwnFamily input packet) := by
  rw [evaluate_choose h, Option.some.injEq, Prod.mk.injEq, List.cons.injEq] at he
  obtain ⟨ipv4, hfamily⟩ := Choice.family_of_redirect he.2.1
  refine ⟨ipv4, hfamily, he.2.1, ?_⟩
  rw [family_choose hfamily, answersByFamily_iff]
  rfl

/- The redirected client asks for the IPv6 address of w.ab, over IPv4. -/
def aaaaQuery : DnsPacket where
  header := ⟨7, 1, 0, 1, 0, 0, 0⟩
  questions := [⟨sampleName, qtAAAA, qtcIn⟩]
  answers := []
  authorities := []
  additionals := []

def sampleList : RuleList := ⟨[sampleEth.value, sampleRedirect.value], RuleData.zeroed.policy⟩

theorem sampleTable_redirects :
    sampleTable.evaluate sampleInput = some (true, [.redirect sampleIp.ipaddr]) :=
  evaluate_choose sampleTable_represents sampleInput

/-- The AAAA question is answered from an IPv4 target: the last twelve bytes of the answer
are those of the union that the address did not set. -/
theorem aaaa_answered_from_ipv4 :
    Represents sampleTable sampleList ∧ aaaaQuery.validate .incomingRequest = eNoError ∧
      sampleTable.evaluate sampleInput = some (true, [.redirect sampleIp.ipaddr]) ∧
      (sampleList.choose sampleInput).family = some true ∧ ¬ AnswersByFamily true aaaaQuery := by
  refine ⟨sampleTable_represents, by decide, sampleTable_redirects, rfl, ?_⟩
  intro h
  exact absurd (h.aaaa _ (List.mem_singleton.mpr rfl) rfl) (by decide)

theorem redirect_family_iff_sampleTable :
    ∃ ipv4, (sampleList.choose sampleInput).family = some ipv4 ∧
      (sampleList.choose sampleInput).act sampleList.policy = .redirect sampleIp.ipaddr ∧
      (AnswersByFamily ipv4 aaaaQuery ↔ AsksOwnFamily sampleInput aaaaQuery) :=
  redirect_family_iff sampleTable sampleList sampleTable_represents sampleInput aaaaQuery
    sampleIp.ipaddr sampleTable_redirects

end DnsWrapper.Shm
