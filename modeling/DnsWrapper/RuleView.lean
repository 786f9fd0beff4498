import DnsWrapper.RuleEvaluate
import DnsWrapper.InsertStores

/-! A rule table as Evaluate and Redirect see it, and how the tables differ that two insertions
leave. Of an address to match only the bytes of its family are read, of a target all sixteen:
a question for an IPv6 address is answered with all of them. -/
namespace DnsWrapper.Shm
open ByteRegion ByteWriter ByteWord NetCommon

/- The address with the bytes that are not of its family blanked out. -/
def IpAddressData.seen (d : IpAddressData) : IpAddressData :=
  if d.ipv4 then ⟨true, IpAddress.setIpv4 ⟨Vector.replicate 16 0⟩ d.ipaddr⟩ else d

/- What is read of a rule; none is a part that it does not have or that cannot be read. -/
structure RuleView where
  ruleType : RuleType
  actionType : ActionType
  ipd : Option IpAddressData
  eth : Option EthAddress
  target : Option IpAddressData
  deriving DecidableEq

def RuleRef.view (data : List UInt8) (r : RuleRef) : RuleView where
  ruleType := r.ruleType
  actionType := r.actionType
  ipd := (r.ipd.bind (loadIp data)).map IpAddressData.seen
  eth := r.eth.bind (loadEth data)
  target := r.target.bind (loadIp data)

/- The rules up to the first one that cannot be found. -/
def viewFrom (data : List UInt8) : Nat → Nat → List RuleView
  | 0, _ => []
  | k + 1, t =>
    match nextRule data t with
    | none => []
    | some (r, t) => r.view data :: viewFrom data k t

structure TableView where
  size : Nat
  rules : List RuleView
  policy4 : Action
  policy6 : Action

def RuleData.view (rd : RuleData) : TableView where
  size := rd.size
  rules := viewFrom rd.data rd.size 0
  policy4 := rd.policy.act true
  policy6 := rd.policy.act false

section Evaluate

theorem seen_ipv4 (d : IpAddressData) : d.seen.ipv4 = d.ipv4 := by
  rw [IpAddressData.seen]
  split_ifs with h
  · exact h.symm
  · rfl

/- The test of the address does not look at what is blanked out. -/
theorem ip_test_seen (d : IpAddressData) (a : IpAddress) :
    (d.seen.ipv4 = true ∧ d.seen.ipaddr.ipv4 ≠ a.ipv4 ∨
      d.seen.ipv4 = false ∧ d.seen.ipaddr.ipv6 ≠ a.ipv6) ↔
    (d.ipv4 = true ∧ d.ipaddr.ipv4 ≠ a.ipv4 ∨ d.ipv4 = false ∧ d.ipaddr.ipv6 ≠ a.ipv6) := by
  rw [seen_ipv4, IpAddressData.seen]
  cases h : d.ipv4 with
  | true => simp
  | false => simp

variable {data data' : List UInt8} {r r' : RuleRef}

theorem ipMatches_view (h : r.view data = r'.view data') (input : Input) :
    ipMatches data r input = ipMatches data' r' input := by
  have htype : r.ruleType = r'.ruleType := congrArg RuleView.ruleType h
  have hipd : (r.ipd.bind (loadIp data)).map IpAddressData.seen =
      (r'.ipd.bind (loadIp data')).map IpAddressData.seen := congrArg RuleView.ipd h
  rw [ipMatches, ipMatches, htype]
  cases hd : r.ipd.bind (loadIp data) with
  | none =>
    rw [hd] at hipd
    rw [Option.map_eq_none_iff.mp hipd.symm]
  | some d =>
    rw [hd] at hipd
    obtain ⟨d', hd', hseen⟩ := Option.map_eq_some_iff.mp hipd.symm
    have hfamily : d.ipv4 = d'.ipv4 := by rw [← seen_ipv4, ← hseen, seen_ipv4]
    have htest := (ip_test_seen d' input.ipaddr).symm.trans (hseen ▸ ip_test_seen d input.ipaddr)
    rw [hfamily] at htest
    rw [hd']
    simp only [Option.bind_eq_bind, Option.bind_some, hfamily, htest]

theorem ethMatches_view (h : r.view data = r'.view data') (input : Input) :
    ethMatches data r input = ethMatches data' r' input := by
  have htype : r.ruleType = r'.ruleType := congrArg RuleView.ruleType h
  have heth : r.eth.bind (loadEth data) = r'.eth.bind (loadEth data') := congrArg RuleView.eth h
  rw [ethMatches, ethMatches, htype, heth]

theorem targetMatches_view (h : r.view data = r'.view data') (input : Input) :
    targetMatches data r input = targetMatches data' r' input := by
  have haction : r.actionType = r'.actionType := congrArg RuleView.actionType h
  have htarget : r.target.bind (loadIp data) = r'.target.bind (loadIp data') :=
    congrArg RuleView.target h
  rw [targetMatches, targetMatches, haction, htarget]

theorem ruleMatches_view (h : r.view data = r'.view data') (input : Input) :
    ruleMatches data r input = ruleMatches data' r' input := by
  rw [ruleMatches, ruleMatches, ipMatches_view h, ethMatches_view h, targetMatches_view h]

theorem ruleAction_view (h : r.view data = r'.view data') :
    ruleAction data r = ruleAction data' r' := by
  have haction : r.actionType = r'.actionType := congrArg RuleView.actionType h
  have htarget : r.target.bind (loadIp data) = r'.target.bind (loadIp data') :=
    congrArg RuleView.target h
  rw [ruleAction, ruleAction, haction, htarget]

theorem evaluateFrom_view {rd rd' : RuleData} (input : Input)
    (hpolicy : rd.policy.act input.ipv4 = rd'.policy.act input.ipv4) {k t t' : Nat}
    (h : viewFrom rd.data k t = viewFrom rd'.data k t') :
    rd.evaluateFrom input k t = rd'.evaluateFrom input k t' := by
  induction k generalizing t t' with
  | zero => simp [RuleData.evaluateFrom, hpolicy]
  | succ k ih =>
    rw [viewFrom, viewFrom] at h
    rw [RuleData.evaluateFrom, RuleData.evaluateFrom]
    cases hn : nextRule rd.data t with
    | none =>
      cases hn' : nextRule rd'.data t' with
      | none => rfl
      | some x => simp [hn, hn'] at h
    | some x =>
      cases hn' : nextRule rd'.data t' with
      | none => simp [hn, hn'] at h
      | some y =>
        obtain ⟨r, s⟩ := x
        obtain ⟨r', s'⟩ := y
        simp only [hn, hn', List.cons.injEq] at h
        simp only [Option.bind_eq_bind, Option.bind_some, ruleMatches_view h.1,
          ruleAction_view h.1, ih h.2]

/-- Tables that look the same are evaluated the same, for every request. -/
theorem evaluate_of_view {rd rd' : RuleData} (h : rd.view = rd'.view) (input : Input) :
    rd.evaluate input = rd'.evaluate input := by
  have hsize : rd.size = rd'.size := congrArg TableView.size h
  have hrules : viewFrom rd.data rd.size 0 = viewFrom rd'.data rd'.size 0 :=
    congrArg TableView.rules h
  have hpolicy : rd.policy.act input.ipv4 = rd'.policy.act input.ipv4 := by
    cases input.ipv4 with
    | true => exact congrArg TableView.policy4 h
    | false => exact congrArg TableView.policy6 h
  rw [← hsize] at hrules
  rw [RuleData.evaluate, RuleData.evaluate, ← hsize]
  exact evaluateFrom_view input hpolicy hrules

end Evaluate

section Agree
variable {data data' : List UInt8}

/- The arrays hold the same in the places from lo up to hi. -/
def Agree (data data' : List UInt8) (lo hi : Nat) : Prop :=
  ∀ j, lo ≤ j → j < hi → data[j]? = data'[j]?

theorem load32_agree {i : Nat} (h : Agree data data' i (i + 4)) : load32 data i = load32 data' i := by
  rw [load32, load32, h i (by omega) (by omega), h (i + 1) (by omega) (by omega),
    h (i + 2) (by omega) (by omega), h (i + 3) (by omega) (by omega)]

theorem nextRule_agree {t : Nat} (h : Agree data data' t (t + sizeofRuleHeader)) :
    nextRule data t = nextRule data' t := by
  rw [sizeofRuleHeader] at h
  rw [nextRule, nextRule, load32_agree fun j hlo hhi => h j hlo (by omega),
    load32_agree fun j hlo hhi => h j (by omega) (by omega)]

theorem loadBytes_agree (hlen : data.length = data'.length) {k i : Nat}
    (h : Agree data data' i (i + k)) : loadBytes k data i = loadBytes k data' i := by
  rw [loadBytes, loadBytes]
  by_cases hk : i + k ≤ data.length
  · rw [dif_pos hk, dif_pos (by omega)]
    congr 1
    apply Vector.ext
    intro j hj
    have hget := h (i + j) (by omega) (by omega)
    rw [List.getElem?_eq_getElem (by omega), List.getElem?_eq_getElem (by omega)] at hget
    simpa using hget
  · rw [dif_neg hk, dif_neg (by omega)]

theorem loadIp_agree (hlen : data.length = data'.length) {i : Nat}
    (h : Agree data data' i (i + sizeofIpAddressData)) : loadIp data i = loadIp data' i := by
  rw [sizeofIpAddressData] at h
  rw [loadIp, loadIp, h i (by omega) (by omega),
    loadBytes_agree hlen fun j hlo hhi => h j (by omega) (by omega)]

theorem loadEth_agree (hlen : data.length = data'.length) {i : Nat}
    (h : Agree data data' i (i + sizeofEthAddress)) : loadEth data i = loadEth data' i := by
  rw [sizeofEthAddress] at h
  rw [loadEth, loadEth, loadBytes_agree hlen h]

theorem nextRule_eq {t t' : Nat} {r : RuleRef} (h : nextRule data t = some (r, t')) :
    ∃ a b, (r, t') = locate a b (t + sizeofRuleHeader) := by
  obtain ⟨_, _, h⟩ := Option.bind_eq_some_iff.mp h
  obtain ⟨a, _, h⟩ := Option.bind_eq_some_iff.mp h
  obtain ⟨_, _, h⟩ := Option.bind_eq_some_iff.mp h
  obtain ⟨b, _, h⟩ := Option.bind_eq_some_iff.mp h
  exact ⟨a, b, (Option.some.inj h).symm⟩

theorem nextRule_past {t t' : Nat} {r : RuleRef} (h : nextRule data t = some (r, t')) :
    t + sizeofRuleHeader ≤ t' := by
  obtain ⟨a, b, heq⟩ := nextRule_eq h
  rw [locate_eq] at heq
  cases heq
  exact Nat.le_add_right _ _

/- The parts of a rule are between its header and the next rule. -/
theorem view_agree (hlen : data.length = data'.length) {t t' : Nat} {r : RuleRef}
    (hnext : nextRule data t = some (r, t')) (h : Agree data data' t t') :
    r.view data = r.view data' := by
  have hip : ∀ i, t ≤ i → i + sizeofIpAddressData ≤ t' → loadIp data i = loadIp data' i :=
    fun i hlo hhi => loadIp_agree hlen fun j hj hj' => h j (by omega) (by omega)
  have heth : ∀ i, t ≤ i → i + sizeofEthAddress ≤ t' → loadEth data i = loadEth data' i :=
    fun i hlo hhi => loadEth_agree hlen fun j hj hj' => h j (by omega) (by omega)
  obtain ⟨a, b, heq⟩ := nextRule_eq hnext
  cases a <;> cases b <;> cases heq <;>
    simp (disch := omega) only [RuleRef.view, Option.bind_some, hip, heth] <;> rfl

theorem viewFrom_above (hlen : data.length = data'.length) {k t : Nat}
    (h : ∀ j, t ≤ j → data[j]? = data'[j]?) : viewFrom data k t = viewFrom data' k t := by
  induction k generalizing t with
  | zero => rfl
  | succ k ih =>
    have hnext : nextRule data t = nextRule data' t := nextRule_agree fun j hj _ => h j hj
    rw [viewFrom, viewFrom, ← hnext]
    cases hn : nextRule data t with
    | none => rfl
    | some x =>
      obtain ⟨r, t'⟩ := x
      have hpast := nextRule_past hn
      have hrest : viewFrom data k t' = viewFrom data' k t' := ih fun j hj => h j (by omega)
      simp only [view_agree hlen hn fun j hj _ => h j hj, hrest]

theorem le_of_skip {k t s : Nat} (h : skip data k t = some s) : t ≤ s := by
  induction k generalizing t with
  | zero =>
    cases h
    exact Nat.le_refl _
  | succ k ih =>
    obtain ⟨⟨r, t'⟩, hnext, h⟩ := Option.bind_eq_some_iff.mp h
    have hpast := nextRule_past hnext
    have hle := ih h
    omega

theorem skip_agree {i t s : Nat} (hskip : skip data i t = some s) (h : Agree data data' t s) :
    skip data' i t = some s := by
  induction i generalizing t with
  | zero => exact hskip
  | succ i ih =>
    obtain ⟨⟨r, t'⟩, hnext, hskip⟩ := Option.bind_eq_some_iff.mp hskip
    have hpast := nextRule_past hnext
    have hle := le_of_skip hskip
    rw [nextRule_agree fun j hj hj' => h j hj (by omega)] at hnext
    rw [skip, hnext]
    exact ih hskip fun j hj hj' => h j (by omega) hj'

/- A walk over rules that are the same in both arrays. -/
theorem viewFrom_below (hlen : data.length = data'.length) {i k t s : Nat}
    (hskip : skip data i t = some s) (h : Agree data data' t s) :
    ∃ vs, viewFrom data (i + k) t = vs ++ viewFrom data k s ∧
      viewFrom data' (i + k) t = vs ++ viewFrom data' k s := by
  induction i generalizing t with
  | zero =>
    cases hskip
    exact ⟨[], by simp, by simp⟩
  | succ i ih =>
    obtain ⟨⟨r, t'⟩, hnext, hskip⟩ := Option.bind_eq_some_iff.mp hskip
    have hpast := nextRule_past hnext
    have hle := le_of_skip hskip
    have hnext' : nextRule data' t = some (r, t') := by
      rw [← nextRule_agree fun j hj hj' => h j hj (by omega)]
      exact hnext
    have hview := view_agree hlen hnext fun j hj hj' => h j hj (by omega)
    obtain ⟨vs, hvs, hvs'⟩ := ih hskip fun j hj hj' => h j (by omega) hj'
    refine ⟨r.view data :: vs, ?_, ?_⟩
    · rw [Nat.add_right_comm, viewFrom, hnext]
      simp only [hvs, List.cons_append]
    · rw [Nat.add_right_comm, viewFrom, hnext']
      simp only [hvs', hview, List.cons_append]

end Agree

/- The part of a rule that is asked for. -/
def Rule.view (r : Rule) : RuleView where
  ruleType := r.ruleType
  actionType := r.actionType
  ipd := if r.ruleType.hasIp then r.ipd.map (·.toIpAddressData.seen) else none
  eth := if r.ruleType.hasEth then r.eth else none
  target := if r.actionType = .redirect then r.target.map (·.toIpAddressData) else none

theorem view_encoded {data : List UInt8} {loc : Nat} (r : Rule) (h : Holds data loc r.encode) :
    ∃ ref, nextRule data loc = some (ref, loc + r.bytes) ∧ ref.view data = r.view := by
  refine ⟨(locate r.ruleType r.actionType (loc + sizeofRuleHeader)).1, ?_, ?_⟩
  · rw [nextRule_encoded r h, ← locate_snd]
  · obtain ⟨hip, heth, htarget⟩ := parts_encoded r h
    rw [RuleRef.view, hip, heth, htarget, locate_eq, Rule.view]
    simp only [beq_iff_eq, apply_ite (Option.map IpAddressData.seen), Option.map_map,
      Option.map_none]
    rfl

namespace RuleData
variable {rd : RuleData}

/- What insertRules makes of the table and the length of a rule: false where it is refused, true
   where it is stored. Nothing where the walk or the loop that moves bytes leaves the array. -/
def room (rd : RuleData) (bytes index : Nat) : Option Bool :=
  if index > rd.size then some false
  else do
    let insertionPoint ← skip rd.data index 0
    let finish ← skip rd.data (rd.size - index) insertionPoint
    if finish + bytes > dataSize then some false
    else if insertionPoint < finish ∧ finish + bytes = dataSize then none
    else some true

/- The bytes moved up by an insertion, before the rule is written. -/
def moved (rd : RuleData) (bytes index : Nat) : Option (Nat × List UInt8) := do
  let insertionPoint ← skip rd.data index 0
  let finish ← skip rd.data (rd.size - index) insertionPoint
  let data ← shiftUp bytes (insertionPoint + bytes) (finish - insertionPoint) rd.data
  pure (insertionPoint, data)

variable {r : Rule} {index : Nat}

theorem insertRule_refused (h : rd.room r.bytes index = some false) :
    rd.insertRule r index = some (false, rd) := by
  have hnone : rd.insertRules [r] index = some (0, rd) := by
    rw [room] at h
    rw [insertRules]
    by_cases hindex : index > rd.size
    · rw [if_pos hindex]
    rw [if_neg hindex] at h ⊢
    obtain ⟨start, hstart, h⟩ := Option.bind_eq_some_iff.mp h
    obtain ⟨finish, hfinish, h⟩ := Option.bind_eq_some_iff.mp h
    simp only [Option.bind_eq_bind, hstart, hfinish, Option.bind_some, List.map_cons, List.map_nil,
      List.sum_cons, List.sum_nil, Nat.add_zero]
    split_ifs at h with hfull
    · rw [if_pos hfull]
    · cases h
  rw [insertRule, hnone]
  rfl

theorem insertRule_false_iff {rd' : RuleData} :
    rd.insertRule r index = some (false, rd') ↔ rd.room r.bytes index = some false ∧ rd' = rd := by
  constructor
  · intro h
    obtain ⟨⟨n, rd₁⟩, hrules, h⟩ := Option.bind_eq_some_iff.mp h
    obtain ⟨hn, rfl⟩ := Prod.mk.inj (Option.some.inj h)
    rw [insertRules] at hrules
    rw [room]
    split_ifs at hrules ⊢ with hindex
    · exact ⟨rfl, (Prod.mk.inj (Option.some.inj hrules)).2.symm⟩
    · obtain ⟨start, hstart, hrules⟩ := Option.bind_eq_some_iff.mp hrules
      obtain ⟨finish, hfinish, hrules⟩ := Option.bind_eq_some_iff.mp hrules
      simp only [hstart, hfinish, Option.bind_eq_bind, Option.bind_some]
      simp only [List.map_cons, List.map_nil, List.sum_cons, List.sum_nil, Nat.add_zero] at hrules
      split_ifs at hrules with hfull
      · rw [if_pos hfull]
        exact ⟨rfl, (Prod.mk.inj (Option.some.inj hrules)).2.symm⟩
      · -- a rule that was written is counted
        obtain ⟨data, _, hrules⟩ := Option.bind_eq_some_iff.mp hrules
        obtain ⟨⟨data', _⟩, _, hrules⟩ := Option.bind_eq_some_iff.mp hrules
        cases hrules
        cases hn
  · rintro ⟨hroom, rfl⟩
    exact insertRule_refused hroom

theorem insertRule_outside (hlen : rd.data.length = dataSize) (h : rd.room r.bytes index = none) :
    rd.insertRule r index = none := by
  have hnone : rd.insertRules [r] index = none := by
    rw [room] at h
    rw [insertRules]
    by_cases hindex : index > rd.size
    · rw [if_pos hindex] at h
      cases h
    rw [if_neg hindex] at h ⊢
    cases hstart : skip rd.data index 0 with
    | none => rfl
    | some start =>
      rw [hstart] at h
      simp only [Option.bind_eq_bind, Option.bind_some, List.map_cons, List.map_nil,
        List.sum_cons, List.sum_nil, Nat.add_zero] at h ⊢
      cases hfinish : skip rd.data (rd.size - index) start with
      | none => rfl
      | some finish =>
        rw [hfinish] at h
        simp only [Option.bind_some] at h ⊢
        split_ifs at h with hfull hlast
        · rw [if_neg hfull, shiftUp_faults (by omega) (by omega)]
          rfl
  rw [insertRule, hnone]
  rfl

theorem insertRule_stored (hlen : rd.data.length = dataSize)
    (h : rd.room r.bytes index = some true) :
    ∃ start data, rd.moved r.bytes index = some (start, data) ∧
      skip rd.data index 0 = some start ∧ index ≤ rd.size ∧ data.length = dataSize ∧
      start + r.bytes ≤ dataSize ∧ (∀ j < start, data[j]? = rd.data[j]?) ∧
      rd.insertRule r index =
        some (true, { rd with size := rd.size + 1, data := splice data start r.encode }) := by
  rw [room] at h
  by_cases hindex : index > rd.size
  · rw [if_pos hindex] at h
    cases h
  rw [if_neg hindex] at h
  obtain ⟨start, hstart, h⟩ := Option.bind_eq_some_iff.mp h
  obtain ⟨finish, hfinish, h⟩ := Option.bind_eq_some_iff.mp h
  have hle := le_of_skip hfinish
  have hfull : ¬ finish + r.bytes > dataSize := by
    intro hfull
    rw [if_pos hfull] at h
    cases h
  have hlast : ¬ (start < finish ∧ finish + r.bytes = dataSize) := by
    intro hlast
    rw [if_neg hfull, if_pos hlast] at h
    cases h
  have hroom : finish - start = 0 ∨ start + r.bytes + (finish - start) < rd.data.length := by
    rw [hlen]
    omega
  obtain ⟨data, hshift, hsize, hget⟩ := shiftUp_copies (bytes_pos r) hroom
  have hover : Overwrites (all Rule.write [r]) (encodeAll [r]) :=
    overwrites_all [r] fun x _ => x.overwrites_write
  have hr : encodeAll [r] = r.encode := List.append_nil r.encode
  have hrun := hover data start (by rw [length_encodeAll_single]; omega)
  rw [hr] at hrun
  refine ⟨start, data, ?_, hstart, by omega, by omega, by omega, ?_, ?_⟩
  · simp [moved, hstart, hfinish, hshift]
  · intro j hj
    rw [hget, if_neg (by omega)]
  · rw [insertRule, insertRules, if_neg hindex]
    simp only [Option.bind_eq_bind, hstart, hfinish, Option.bind_some, List.map_cons,
      List.map_nil, List.sum_cons, List.sum_nil, Nat.add_zero, if_neg hfull, hshift, hrun]
    rfl

/-- Two rules of the same types are stored at one place in tables that look the same exactly if
the rules do. -/
theorem view_insertRule_iff (hlen : rd.data.length = dataSize) {r' : Rule}
    (htype : r.ruleType = r'.ruleType) (haction : r.actionType = r'.actionType)
    (hroom : rd.room r.bytes index = some true) {rd₁ rd₂ : RuleData}
    (h₁ : rd.insertRule r index = some (true, rd₁)) (h₂ : rd.insertRule r' index = some (true, rd₂)) :
    rd₁.view = rd₂.view ↔ r.view = r'.view := by
  have hbytes : r'.bytes = r.bytes := by rw [Rule.bytes, Rule.bytes, htype, haction]
  have hroom' : rd.room r'.bytes index = some true := by rw [hbytes, hroom]
  obtain ⟨start, data, hmoved, hskip, hle, hsize, hfit, hbelow, heq₁⟩ := insertRule_stored hlen hroom
  obtain ⟨start', data', hmoved', _, _, _, _, _, heq₂⟩ := insertRule_stored hlen hroom'
  rw [hbytes, hmoved] at hmoved'
  cases hmoved'
  cases h₁.symm.trans heq₁
  cases h₂.symm.trans heq₂
  have hlen₁ : start + r.encode.length ≤ data.length := by rw [r.length_encode]; omega
  have hlen₂ : start + r'.encode.length ≤ data.length := by rw [r'.length_encode]; omega
  have hsame : (splice data start r.encode).length = (splice data start r'.encode).length := by
    rw [length_splice hlen₁, length_splice hlen₂]
  have hoff : ∀ j, (j < start ∨ start + r.bytes ≤ j) →
      (splice data start r.encode)[j]? = (splice data start r'.encode)[j]? := by
    intro j hj
    rw [getElem?_splice hlen₁, getElem?_splice hlen₂, r.length_encode, r'.length_encode,
      if_neg (by omega), if_neg (by omega)]
  have hwalk : skip (splice data start r.encode) index 0 = some start := by
    apply skip_agree hskip
    intro j _ hj
    rw [getElem?_splice hlen₁, if_neg (by omega), hbelow j hj]
  obtain ⟨vs, hvs₁, hvs₂⟩ := viewFrom_below (k := rd.size - index + 1) hsame hwalk
    fun j _ hj => hoff j (.inl hj)
  obtain ⟨ref₁, hnext₁, hview₁⟩ := view_encoded r (holds_splice hlen₁)
  obtain ⟨ref₂, hnext₂, hview₂⟩ := view_encoded r' (holds_splice hlen₂)
  have hrest := viewFrom_above (k := rd.size - index) hsame fun j hj => hoff j (.inr hj)
  have hcount : rd.size + 1 = index + (rd.size - index + 1) := by omega
  rw [viewFrom, hnext₁] at hvs₁
  rw [viewFrom, hnext₂, hbytes] at hvs₂
  simp only [view, hcount, hvs₁, hvs₂, hview₁, hview₂, hrest, TableView.mk.injEq, true_and, and_true,
    List.append_cancel_left_eq, List.cons.injEq]

end RuleData

end DnsWrapper.Shm
