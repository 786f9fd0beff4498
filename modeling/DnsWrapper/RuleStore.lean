import DnsWrapper.RuleEncoding

/-! The rule table as a list of rules: what the array must hold for a list to be stored,
and what each operation makes of the list. -/
namespace DnsWrapper.Shm
open ByteRegion ByteWriter NetCommon

namespace RuleData

/- The array begins with the encoding of the rules; what is behind is left over. -/
structure Stores (rd : RuleData) (rules : List Rule) : Prop where
  size_eq : rd.size = rules.length
  data_length : rd.data.length = dataSize
  encoded : encodeAll rules <+: rd.data

namespace Stores
variable {rd : RuleData} {rules : List Rule}

theorem length_le (h : rd.Stores rules) : (encodeAll rules).length ≤ dataSize := by
  rw [← h.data_length]
  exact h.encoded.length_le

theorem read (h : rd.Stores rules) :
    readRules rd.data rd.size 0 = some (rules.map Rule.value, (encodeAll rules).length) := by
  rw [h.size_eq, readRules_encoded rules (holds_zero.mpr h.encoded), Nat.zero_add]

theorem holds_append {a b : List Rule} (h : rd.Stores (a ++ b)) :
    Holds rd.data 0 (encodeAll a) ∧ Holds rd.data (encodeAll a).length (encodeAll b) := by
  have hall := holds_zero.mpr h.encoded
  rw [encodeAll_append, ByteRegion.holds_append, Nat.zero_add] at hall
  exact hall

theorem skip_append {a b : List Rule} (h : rd.Stores (a ++ b)) :
    skip rd.data a.length 0 = some (encodeAll a).length ∧
      skip rd.data b.length (encodeAll a).length = some (encodeAll (a ++ b)).length := by
  obtain ⟨ha, hb⟩ := h.holds_append
  rw [skip_encoded a ha, skip_encoded b hb, Nat.zero_add, encodeAll_append, List.length_append]
  exact ⟨rfl, rfl⟩

/- The walk of insertRules to the insertion point and on to the end. -/
theorem walk (h : rd.Stores rules) {index : Nat} (hi : index ≤ rules.length) :
    skip rd.data index 0 = some (encodeAll (rules.take index)).length ∧
      skip rd.data (rd.size - index) (encodeAll (rules.take index)).length =
        some (encodeAll rules).length ∧
      (encodeAll rules).length - (encodeAll (rules.take index)).length =
        (encodeAll (rules.drop index)).length := by
  have hsplit : rules.take index ++ rules.drop index = rules := List.take_append_drop index rules
  have hlen : (rules.take index).length = index := List.length_take_of_le hi
  have hdrop : (rules.drop index).length = rd.size - index := by
    rw [List.length_drop, h.size_eq]
  obtain ⟨hskip, hskip'⟩ := skip_append (hsplit.symm ▸ h)
  rw [hlen] at hskip
  rw [hdrop, hsplit] at hskip'
  refine ⟨hskip, hskip', ?_⟩
  have hall := congrArg (fun l => (encodeAll l).length) hsplit
  simp only [encodeAll_append, List.length_append] at hall
  omega

end Stores

theorem zeroed_stores : zeroed.Stores [] where
  size_eq := rfl
  data_length := List.length_replicate
  encoded := List.nil_prefix

section Insert
variable {rd : RuleData} {rules : List Rule}

theorem insertRules_past_end (h : rd.Stores rules) (new : List Rule) {index : Nat}
    (hi : rules.length < index) : rd.insertRules new index = some (0, rd) := by
  rw [insertRules, if_pos (by rw [h.size_eq]; exact hi)]

/- What insertRules does once it has walked over the table. -/
theorem insertRules_at (h : rd.Stores rules) (new : List Rule) {index : Nat}
    (hi : index ≤ rules.length) :
    rd.insertRules new index =
      if (encodeAll rules).length + (encodeAll new).length > dataSize then some (0, rd)
      else (do
        let data ← shiftUp (encodeAll new).length
          ((encodeAll (rules.take index)).length + (encodeAll new).length)
          (encodeAll (rules.drop index)).length rd.data
        let (data, _) ← (all Rule.write new).run data (encodeAll (rules.take index)).length
        some (new.length, { rd with size := rd.size + new.length, data })) := by
  obtain ⟨hskip, hskip', hk⟩ := h.walk hi
  rw [insertRules, if_neg (by rw [h.size_eq]; omega), ← length_encodeAll]
  simp only [hskip, hskip', hk, Option.bind_eq_bind, Option.bind_some]

/- At the end there is nothing to shift. -/
theorem insertRules_end (h : rd.Stores rules) (new : List Rule)
    (hfit : (encodeAll rules).length + (encodeAll new).length ≤ dataSize) :
    rd.insertRules new rules.length =
      some (new.length, { rd with
        size := rd.size + new.length
        data := splice rd.data (encodeAll rules).length (encodeAll new) }) := by
  have hover : Overwrites (all Rule.write new) (encodeAll new) :=
    overwrites_all new fun r _ => r.overwrites_write
  have hrun := hover rd.data (encodeAll rules).length (by rw [h.data_length]; exact hfit)
  have hnil : (encodeAll []).length = 0 := rfl
  rw [insertRules_at h new (Nat.le_refl _), if_neg (by omega), List.take_length,
    List.drop_length, hnil]
  simp [shiftUp, hrun]

theorem splice_stores (h : rd.Stores rules) (new : List Rule)
    (hfit : (encodeAll rules).length + (encodeAll new).length ≤ dataSize) :
    RuleData.Stores { rd with
      size := rd.size + new.length
      data := splice rd.data (encodeAll rules).length (encodeAll new) } (rules ++ new) where
  size_eq := by rw [List.length_append, h.size_eq]
  data_length := by rw [length_splice (by rw [h.data_length]; exact hfit), h.data_length]
  encoded := by
    have htake := List.prefix_iff_eq_take.mp h.encoded
    rw [encodeAll_append, splice, ← htake]
    exact List.prefix_append _ _

theorem length_encodeAll_single (r : Rule) : (encodeAll [r]).length = r.bytes := by
  rw [length_encodeAll_cons, encodeAll, List.flatMap_nil, List.length_nil, Nat.add_zero]

/- InsertRule has no place for the rule. -/
def Rejects (rules : List Rule) (r : Rule) (index : Nat) : Prop :=
  rules.length < index ∨ dataSize < (encodeAll rules).length + r.bytes

theorem insertRule_rejected (h : rd.Stores rules) {r : Rule} {index : Nat}
    (hr : Rejects rules r index) : rd.insertRule r index = some (false, rd) := by
  have hnone : rd.insertRules [r] index = some (0, rd) := by
    by_cases hi : rules.length < index
    · exact insertRules_past_end h [r] hi
    · rw [insertRules_at h [r] (by omega), length_encodeAll_single,
        if_pos (hr.resolve_left hi)]
  rw [insertRule, hnone]
  rfl

/- A call that returns is rejected for want of a place only. -/
theorem insertRule_false (h : rd.Stores rules) {rd' : RuleData} {r : Rule} {index : Nat}
    (hcall : rd.insertRule r index = some (false, rd')) : Rejects rules r index := by
  by_contra hr
  rw [Rejects, not_or, Nat.not_lt, Nat.not_lt] at hr
  rw [insertRule, insertRules_at h [r] hr.1, length_encodeAll_single, if_neg (by omega)] at hcall
  obtain ⟨⟨n, rd₁⟩, hn, hcall⟩ := Option.bind_eq_some_iff.mp hcall
  obtain ⟨data, _, hn⟩ := Option.bind_eq_some_iff.mp hn
  obtain ⟨⟨data', _⟩, _, hn⟩ := Option.bind_eq_some_iff.mp hn
  cases hn
  cases hcall

theorem appendRule_fits (h : rd.Stores rules) {r : Rule}
    (hfit : (encodeAll rules).length + r.bytes ≤ dataSize) :
    ∃ rd', rd.appendRule r = some (true, rd') ∧ rd'.policy = rd.policy ∧
      rd'.Stores (rules ++ [r]) := by
  rw [← length_encodeAll_single] at hfit
  refine ⟨_, ?_, ?_, splice_stores h [r] hfit⟩
  · rw [appendRule, h.size_eq, insertRule, insertRules_end h [r] hfit, h.size_eq]
    rfl
  · rfl

theorem appendRule_full (h : rd.Stores rules) {r : Rule}
    (hfull : dataSize < (encodeAll rules).length + r.bytes) :
    rd.appendRule r = some (false, rd) := by
  rw [appendRule]
  exact insertRule_rejected h (.inr hfull)

end Insert

section Delete
variable {rd : RuleData}

theorem deleteRule_rejected {rules : List Rule} (h : rd.Stores rules) {index : Nat}
    (hi : rules.length ≤ index) : rd.deleteRule index = some (false, rd) := by
  rw [deleteRule, if_pos (.inr (by rw [h.size_eq]; exact hi))]

theorem deleteRule_last {a : List Rule} {r : Rule} (h : rd.Stores (a ++ [r])) :
    ∃ rd', rd.deleteRule a.length = some (true, rd') ∧ rd'.policy = rd.policy ∧
      rd'.Stores a := by
  have hsize : rd.size = a.length + 1 := by
    rw [h.size_eq, List.length_append, List.length_singleton]
  refine ⟨{ rd with size := rd.size - 1 }, ?_, rfl, ?_, h.data_length, ?_⟩
  · rw [deleteRule, if_neg (by omega), if_pos (by omega)]
  · rw [hsize, Nat.add_sub_cancel]
  · exact holds_zero.mp h.holds_append.1

/- The rules behind the deleted one are moved over it. -/
theorem deleteRule_inner {a b : List Rule} {r : Rule} (h : rd.Stores (a ++ r :: b)) (hb : b ≠ []) :
    ∃ rd', rd.deleteRule a.length = some (true, rd') ∧ rd'.policy = rd.policy ∧
      rd'.Stores (a ++ b) := by
  have hpos := List.length_pos_iff.mpr hb
  have hsize : rd.size = a.length + (b.length + 1) := by
    rw [h.size_eq, List.length_append, List.length_cons]
  obtain ⟨hskip, _⟩ := h.skip_append
  obtain ⟨hr, hrest⟩ := ByteRegion.holds_append.mp h.holds_append.2
  obtain ⟨ref, hnext, _⟩ := nextRule_step r hr
  rw [Rule.length_encode] at hrest
  have hskip' := skip_encoded b hrest
  obtain ⟨post, hdata⟩ := h.encoded
  rw [encodeAll_append, encodeAll_cons, ← List.append_assoc] at hdata
  obtain ⟨junk, hjunk, hshift⟩ := shiftDown_over_gap (encodeAll a) (encodeAll b) post
    r.encode_ne_nil
  rw [hdata, Rule.length_encode] at hshift
  refine ⟨⟨rd.policy, rd.size - 1, encodeAll a ++ encodeAll b ++ junk⟩, ?_, rfl, ?_, ?_, ?_⟩
  · rw [deleteRule, if_neg (by omega), if_neg (by omega)]
    have hrem : rd.size - (a.length + 1) = b.length := by omega
    simp [hskip, hnext, hrem, hskip', hshift]
  · show rd.size - 1 = (a ++ b).length
    rw [hsize, List.length_append]
    omega
  · have hlen := congrArg List.length hdata
    rw [h.data_length] at hlen
    simp only [List.length_append] at hlen ⊢
    omega
  · rw [encodeAll_append]
    exact List.prefix_append _ _

/-- DeleteRule takes the rule at the index out of the list. -/
theorem deleteRule_stores {rules : List Rule} (h : rd.Stores rules) {index : Nat}
    (hi : index < rules.length) :
    ∃ rd', rd.deleteRule index = some (true, rd') ∧ rd'.policy = rd.policy ∧
      rd'.Stores (rules.eraseIdx index) := by
  have hsplit : rules.take index ++ rules[index] :: rules.drop (index + 1) = rules := by
    rw [← List.drop_eq_getElem_cons hi, List.take_append_drop]
  have hlen : (rules.take index).length = index := List.length_take_of_le (Nat.le_of_lt hi)
  rw [List.eraseIdx_eq_take_drop_succ]
  cases hb : rules.drop (index + 1) with
  | nil =>
    rw [hb] at hsplit
    have hdel := deleteRule_last (hsplit.symm ▸ h)
    rwa [hlen, ← List.append_nil (rules.take index)] at hdel
  | cons r b =>
    rw [hb] at hsplit
    have hdel := deleteRule_inner (hsplit.symm ▸ h) (List.cons_ne_nil r b)
    rwa [hlen] at hdel

end Delete
end RuleData

/- A redirection of one IPv4 client and a rule for one MAC address. -/
def sampleIp : IpAddressObject where
  ipv4 := true
  ipaddr := ⟨#v[192, 168, 0, 7, 0, 0, 0, 0, 0, 0, 0, 0, 0, 0, 0, 0]⟩
  padding := #v[1, 2, 3]

def sampleRedirect : Rule where
  ruleType := .ipAddress
  actionType := .redirect
  ipd := some sampleIp
  eth := none
  target := some sampleIp
  ipd_isSome _ := rfl
  eth_isSome := by decide
  target_isSome _ := rfl

def sampleEth : Rule where
  ruleType := .ethAddress
  actionType := .dns
  ipd := none
  eth := some sampleMachine
  target := none
  ipd_isSome := by decide
  eth_isSome _ := rfl
  target_isSome := by decide

end DnsWrapper.Shm
