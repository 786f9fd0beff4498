import DnsWrapper.RuleData

/-! What the bytes of the rule table say: the encoding of a rule, the rule a reader finds
there, and how a walk with nextRule goes over a list of encoded rules. -/
namespace DnsWrapper.Shm
open ByteRegion ByteWriter ByteWord NetCommon
variable {α β : Type}

/- A rule apart from where and how it is stored. -/
inductive Subject where
  | ip (d : IpAddressData)
  | eth (e : EthAddress)
  | ipAndEth (d : IpAddressData) (e : EthAddress)
  deriving DecidableEq

inductive Outcome where
  | dns
  | redirect (target : IpAddressData)
  deriving DecidableEq

structure RuleValue where
  subject : Subject
  outcome : Outcome
  deriving DecidableEq

namespace Subject

def ofParts (d : Option IpAddressData) (e : Option EthAddress) : RuleType → Option Subject
  | .ipAddress => d.map ip
  | .ethAddress => e.map eth
  | .ipAndEthAddress => d.bind fun d => e.map (ipAndEth d)

def ruleType : Subject → RuleType
  | ip _ => .ipAddress
  | eth _ => .ethAddress
  | ipAndEth _ _ => .ipAndEthAddress

theorem ruleType_of_parts {t : RuleType} {d : Option IpAddressData} {e : Option EthAddress}
    {s : Subject} (h : ofParts d e t = some s) : s.ruleType = t := by
  cases t <;> cases d <;> cases e <;> cases h <;> rfl

theorem ofParts_isSome {t : RuleType} {d : Option IpAddressData} {e : Option EthAddress}
    (hd : t.hasIp = true → d.isSome = true) (he : t.hasEth = true → e.isSome = true) :
    (ofParts d e t).isSome = true := by
  cases t with
  | ipAddress => rw [ofParts, Option.isSome_map, hd rfl]
  | ethAddress => rw [ofParts, Option.isSome_map, he rfl]
  | ipAndEthAddress =>
    cases d with
    | none => exact absurd (hd rfl) (by decide)
    | some d => rw [ofParts, Option.bind_some, Option.isSome_map, he rfl]

end Subject

namespace Outcome

def ofParts (target : Option IpAddressData) : ActionType → Option Outcome
  | .dns => some dns
  | .redirect => target.map redirect

def actionType : Outcome → ActionType
  | dns => .dns
  | redirect _ => .redirect

theorem actionType_of_parts {a : ActionType} {d : Option IpAddressData} {o : Outcome}
    (h : ofParts d a = some o) : o.actionType = a := by
  cases a <;> cases d <;> cases h <;> rfl

end Outcome

namespace RuleValue

def ofParts (t : RuleType) (a : ActionType) (ipd : Option IpAddressData) (eth : Option EthAddress)
    (target : Option IpAddressData) : Option RuleValue := do
  let subject ← Subject.ofParts ipd eth t
  let outcome ← Outcome.ofParts target a
  pure ⟨subject, outcome⟩

/- The length of the rule in the table. -/
def bytes (v : RuleValue) : Nat := encodedBytes v.subject.ruleType v.outcome.actionType

/- Parts that the types do not ask for are not looked at. -/
theorem ofParts_guarded (t : RuleType) (a : ActionType) (ipd target : Option IpAddressData)
    (eth : Option EthAddress) :
    ofParts t a (if t.hasIp then ipd else none) (if t.hasEth then eth else none)
      (if (a == .redirect) = true then target else none) = ofParts t a ipd eth target := by
  cases t <;> cases a <;> rfl

theorem ofParts_types {t : RuleType} {a : ActionType} {ipd target : Option IpAddressData}
    {eth : Option EthAddress} {v : RuleValue} (h : ofParts t a ipd eth target = some v) :
    v.subject.ruleType = t ∧ v.outcome.actionType = a := by
  obtain ⟨subject, hs, h⟩ := Option.bind_eq_some_iff.mp h
  obtain ⟨outcome, ho, h⟩ := Option.bind_eq_some_iff.mp h
  cases h
  exact ⟨Subject.ruleType_of_parts hs, Outcome.actionType_of_parts ho⟩

end RuleValue

namespace Rule

def parts (r : Rule) : Option RuleValue :=
  RuleValue.ofParts r.ruleType r.actionType (r.ipd.map (·.toIpAddressData)) r.eth
    (r.target.map (·.toIpAddressData))

theorem parts_isSome (r : Rule) : r.parts.isSome = true := by
  have hs := Subject.ofParts_isSome (d := r.ipd.map (·.toIpAddressData))
    (fun h => by rw [Option.isSome_map, r.ipd_isSome h]) r.eth_isSome
  have ho : (Outcome.ofParts (r.target.map (·.toIpAddressData)) r.actionType).isSome = true := by
    cases ha : r.actionType with
    | dns => rfl
    | redirect => rw [Outcome.ofParts, Option.isSome_map, Option.isSome_map, r.target_isSome ha]
  obtain ⟨s, hs⟩ := Option.isSome_iff_exists.mp hs
  obtain ⟨o, ho⟩ := Option.isSome_iff_exists.mp ho
  simp [parts, RuleValue.ofParts, hs, ho]

def value (r : Rule) : RuleValue := r.parts.get r.parts_isSome

theorem parts_eq (r : Rule) : r.parts = some r.value := (Option.some_get _).symm

theorem bytes_value (r : Rule) : r.value.bytes = r.bytes := by
  obtain ⟨ht, ha⟩ := RuleValue.ofParts_types r.parts_eq
  rw [RuleValue.bytes, ht, ha]
  rfl

end Rule

/- The bytes of an optional part of a rule. -/
def part (wanted : Bool) (image : α → List UInt8) (a : Option α) : List UInt8 :=
  if wanted then a.elim [] image else []

theorem length_part {wanted : Bool} {image : α → List UInt8} {a : Option α} {k : Nat}
    (h : wanted = true → a.isSome = true) (himage : ∀ a, (image a).length = k) :
    (part wanted image a).length = if wanted then k else 0 := by
  cases wanted with
  | false => rfl
  | true =>
    obtain ⟨a, rfl⟩ := Option.isSome_iff_exists.mp (h rfl)
    exact himage a

theorem overwrites_part {wanted : Bool} {image : α → List UInt8} {a : Option α}
    (h : wanted = true → a.isSome = true) :
    Overwrites (if wanted then Rule.copy image a else done) (part wanted image a) := by
  cases wanted with
  | false => exact overwrites_done
  | true =>
    obtain ⟨a, rfl⟩ := Option.isSome_iff_exists.mp (h rfl)
    exact overwrites_putAll (image a)

/- Reading through the pointer of a part. -/
theorem load_part {wanted : Bool} {image : α → List UInt8} {a : Option α} {data : List UInt8}
    {i : Nat} {load : List UInt8 → Nat → Option β} {f : α → β}
    (h : wanted = true → a.isSome = true)
    (hload : ∀ a, Holds data i (image a) → load data i = some (f a))
    (hdata : Holds data i (part wanted image a)) :
    (if wanted then some i else none).bind (load data) = if wanted then a.map f else none := by
  cases wanted with
  | false => rfl
  | true =>
    obtain ⟨a, rfl⟩ := Option.isSome_iff_exists.mp (h rfl)
    exact hload a hdata

theorem length_image (d : IpAddressObject) : d.image.length = sizeofIpAddressData := by
  simp [IpAddressObject.image, sizeofIpAddressData]

theorem load32_holds {data : List UInt8} {i : Nat} {a b c d : UInt8}
    (h : Holds data i [a, b, c, d]) : load32 data i = some (join32 d c b a) := by
  have h₀ : data[i]? = some a := holds_getElem? h (j := 0) (by simp)
  have h₁ : data[i + 1]? = some b := holds_getElem? h (by simp)
  have h₂ : data[i + 2]? = some c := holds_getElem? h (by simp)
  have h₃ : data[i + 3]? = some d := holds_getElem? h (by simp)
  simp [load32, h₀, h₁, h₂, h₃]

theorem loadBytes_holds {k i : Nat} {data : List UInt8} {v : Vector UInt8 k} (hk : 0 < k)
    (h : Holds data i v.toList) : loadBytes k data i = some v := by
  have hlen : (v.toList).length = k := Vector.length_toList
  have hle := holds_length h (List.ne_nil_of_length_pos (by omega))
  rw [hlen] at hle
  rw [loadBytes, dif_pos hle]
  congr 1
  apply Vector.ext
  intro j hj
  have hget := holds_getElem? h (j := j) (by omega)
  rw [List.getElem?_eq_getElem (by omega), List.getElem?_eq_getElem (by omega)] at hget
  rw [Vector.getElem_ofFn]
  simpa using hget

theorem loadEth_holds {data : List UInt8} {i : Nat} (e : EthAddress)
    (h : Holds data i e.v.toList) : loadEth data i = some e := by
  simp [loadEth, loadBytes_holds (by decide) h]

theorem loadIp_holds {data : List UInt8} {i : Nat} (d : IpAddressObject)
    (h : Holds data i d.image) : loadIp data i = some d.toIpAddressData := by
  have hb : data[i]? = some d.ipv4.toUInt8 := holds_getElem? h (j := 0) (by simp [IpAddressObject.image])
  have hv : Holds data (i + 4) d.ipaddr.v.toList := by
    have himage : d.image = (d.ipv4.toUInt8 :: d.padding.toList) ++ d.ipaddr.v.toList := rfl
    rw [himage, holds_append] at h
    simpa using h.2
  have hbool : (d.ipv4.toUInt8 != 0) = d.ipv4 := by
    cases d.ipv4 <;> rfl
  simp [loadIp, hb, loadBytes_holds (by decide) hv, hbool]

namespace Rule

def ipPart (r : Rule) : List UInt8 := part r.ruleType.hasIp IpAddressObject.image r.ipd
def ethPart (r : Rule) : List UInt8 := part r.ruleType.hasEth (fun e => e.v.toList) r.eth

def targetPart (r : Rule) : List UInt8 :=
  part (r.actionType == .redirect) IpAddressObject.image r.target

/-- The bytes of a rule in the table. -/
def encode (r : Rule) : List UInt8 := r.headerImage ++ (r.ipPart ++ (r.ethPart ++ r.targetPart))

theorem wants_target (r : Rule) : (r.actionType == .redirect) = true → r.target.isSome = true :=
  fun h => r.target_isSome (beq_iff_eq.mp h)

theorem length_ipPart (r : Rule) :
    r.ipPart.length = if r.ruleType.hasIp then sizeofIpAddressData else 0 :=
  length_part r.ipd_isSome length_image

theorem length_ethPart (r : Rule) :
    r.ethPart.length = if r.ruleType.hasEth then sizeofEthAddress else 0 :=
  length_part r.eth_isSome fun _ => Vector.length_toList

theorem length_targetPart (r : Rule) :
    r.targetPart.length = if r.actionType = .redirect then sizeofIpAddressData else 0 := by
  rw [targetPart, length_part r.wants_target length_image]
  simp

theorem length_encode (r : Rule) : r.encode.length = r.bytes := by
  rw [encode, List.length_append, List.length_append, List.length_append, length_ipPart,
    length_ethPart, length_targetPart, bytes, encodedBytes]
  simp only [Nat.add_assoc]
  rfl

theorem encode_ne_nil (r : Rule) : r.encode ≠ [] := List.cons_ne_nil _ _

theorem overwrites_write (r : Rule) : Overwrites r.write r.encode := by
  have ht : (if r.actionType = .redirect then copy IpAddressObject.image r.target else done) =
      if (r.actionType == .redirect) = true then copy IpAddressObject.image r.target else done := by
    simp
  rw [write, ht]
  exact overwrites_andThen (overwrites_putAll _) (overwrites_andThen
    (overwrites_part r.ipd_isSome) (overwrites_andThen (overwrites_part r.eth_isSome)
      (overwrites_part r.wants_target)))

end Rule

/- The rule behind the pointers that nextRule returns. -/
def RuleRef.load (data : List UInt8) (ref : RuleRef) : Option RuleValue :=
  RuleValue.ofParts ref.ruleType ref.actionType (ref.ipd.bind (loadIp data))
    (ref.eth.bind (loadEth data)) (ref.target.bind (loadIp data))

/- size rules read with nextRule from position loc on, and the position behind them. -/
def readRules (data : List UInt8) : Nat → Nat → Option (List RuleValue × Nat)
  | 0, loc => some ([], loc)
  | k + 1, loc => do
    let (ref, loc) ← nextRule data loc
    let v ← ref.load data
    let (vs, loc) ← readRules data k loc
    pure (v :: vs, loc)

theorem ofCode_ruleType (t : RuleType) : RuleType.ofCode (join32 0 0 0 t.code) = some t := by
  cases t <;> decide

theorem ofCode_actionType (a : ActionType) : ActionType.ofCode (join32 0 0 0 a.code) = some a := by
  cases a <;> decide

theorem locate_eq (t : RuleType) (a : ActionType) (loc : Nat) :
    locate t a loc =
      (⟨t, a, if t.hasIp then some loc else none,
        if t.hasEth then some (loc + if t.hasIp then sizeofIpAddressData else 0) else none,
        if (a == .redirect) = true then
          some (loc + (if t.hasIp then sizeofIpAddressData else 0) +
            if t.hasEth then sizeofEthAddress else 0)
        else none⟩,
      loc + (encodedBytes t a - sizeofRuleHeader)) := by
  cases t <;> cases a <;> rfl

section Walk
variable {data : List UInt8} {loc : Nat}

theorem nextRule_encoded (r : Rule) (h : Holds data loc r.encode) :
    nextRule data loc = some (locate r.ruleType r.actionType (loc + sizeofRuleHeader)) := by
  have hhead := (holds_append.mp h).1
  have hsplit : r.headerImage = [r.ruleType.code, 0, 0, 0] ++ [r.actionType.code, 0, 0, 0] := rfl
  rw [hsplit, holds_append] at hhead
  have ht := load32_holds hhead.1
  have ha : load32 data (loc + 4) = _ := load32_holds hhead.2
  simp [nextRule, ht, ha, ofCode_ruleType, ofCode_actionType]

theorem locate_snd (r : Rule) :
    (locate r.ruleType r.actionType (loc + sizeofRuleHeader)).2 = loc + r.bytes := by
  have hle : sizeofRuleHeader ≤ r.bytes := by
    rw [Rule.bytes, encodedBytes]
    omega
  rw [locate_eq, ← Rule.bytes]
  simp only
  omega

/- What is behind the pointers to an encoded rule. -/
theorem parts_encoded (r : Rule) (h : Holds data loc r.encode) :
    let ref := (locate r.ruleType r.actionType (loc + sizeofRuleHeader)).1
    (ref.ipd.bind (loadIp data) =
      if r.ruleType.hasIp then r.ipd.map (·.toIpAddressData) else none) ∧
    (ref.eth.bind (loadEth data) = if r.ruleType.hasEth then r.eth else none) ∧
    (ref.target.bind (loadIp data) =
      if (r.actionType == .redirect) = true then r.target.map (·.toIpAddressData) else none) := by
  obtain ⟨_, h⟩ := holds_append.mp h
  obtain ⟨hip, h⟩ := holds_append.mp h
  obtain ⟨heth, htarget⟩ := holds_append.mp h
  rw [Rule.length_ipPart] at heth htarget
  rw [Rule.length_ethPart] at htarget
  have hip' := load_part r.ipd_isSome (fun d hd => loadIp_holds d hd) hip
  have heth' := load_part r.eth_isSome (fun e he => loadEth_holds e he) heth
  have htarget' := load_part r.wants_target (fun d hd => loadIp_holds d hd) htarget
  have hlen : r.headerImage.length = sizeofRuleHeader := rfl
  rw [hlen] at hip' heth' htarget'
  rw [locate_eq]
  simp only [hip', heth', htarget', Option.map_id_fun', id_eq, and_self]

theorem load_encoded (r : Rule) (h : Holds data loc r.encode) :
    (locate r.ruleType r.actionType (loc + sizeofRuleHeader)).1.load data = some r.value := by
  obtain ⟨hip, heth, htarget⟩ := parts_encoded r h
  have hguard := RuleValue.ofParts_guarded r.ruleType r.actionType
    (r.ipd.map (·.toIpAddressData)) (r.target.map (·.toIpAddressData)) r.eth
  rw [RuleRef.load, hip, heth, htarget, locate_eq, ← r.parts_eq, Rule.parts, ← hguard]

theorem nextRule_step (r : Rule) (h : Holds data loc r.encode) :
    ∃ ref, nextRule data loc = some (ref, loc + r.bytes) ∧ ref.load data = some r.value := by
  refine ⟨(locate r.ruleType r.actionType (loc + sizeofRuleHeader)).1, ?_, load_encoded r h⟩
  rw [nextRule_encoded r h, ← locate_snd]

end Walk

def encodeAll (rules : List Rule) : List UInt8 := rules.flatMap Rule.encode

theorem encodeAll_cons (r : Rule) (rules : List Rule) :
    encodeAll (r :: rules) = r.encode ++ encodeAll rules := List.flatMap_cons

theorem encodeAll_append (rules rules' : List Rule) :
    encodeAll (rules ++ rules') = encodeAll rules ++ encodeAll rules' := List.flatMap_append

theorem length_encodeAll_cons (r : Rule) (rules : List Rule) :
    (encodeAll (r :: rules)).length = r.bytes + (encodeAll rules).length := by
  rw [encodeAll_cons, List.length_append, Rule.length_encode]

theorem length_encodeAll (rules : List Rule) :
    (encodeAll rules).length = (rules.map Rule.bytes).sum := by
  induction rules with
  | nil => rfl
  | cons r rules ih => rw [length_encodeAll_cons, ih, List.map_cons, List.sum_cons]

section WalkAll
variable {data : List UInt8}

theorem skip_encoded (rules : List Rule) {loc : Nat} (h : Holds data loc (encodeAll rules)) :
    skip data rules.length loc = some (loc + (encodeAll rules).length) := by
  induction rules generalizing loc with
  | nil => rfl
  | cons r rules ih =>
    obtain ⟨hr, hrest⟩ := holds_append.mp h
    obtain ⟨ref, hnext, _⟩ := nextRule_step r hr
    rw [Rule.length_encode] at hrest
    simp [skip, hnext, ih hrest, length_encodeAll_cons, Nat.add_assoc]

/-- A walk over encoded rules finds each of them. -/
theorem readRules_encoded (rules : List Rule) {loc : Nat} (h : Holds data loc (encodeAll rules)) :
    readRules data rules.length loc =
      some (rules.map Rule.value, loc + (encodeAll rules).length) := by
  induction rules generalizing loc with
  | nil => rfl
  | cons r rules ih =>
    obtain ⟨hr, hrest⟩ := holds_append.mp h
    obtain ⟨ref, hnext, hload⟩ := nextRule_step r hr
    rw [Rule.length_encode] at hrest
    simp [readRules, hnext, hload, ih hrest, length_encodeAll_cons, Nat.add_assoc]

end WalkAll
end DnsWrapper.Shm
