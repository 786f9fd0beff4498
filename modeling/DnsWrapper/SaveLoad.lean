import DnsWrapper.RuleText

/-! Saving the rules and loading them again. -/
namespace DnsWrapper.Shm
open NetCommon TextSplit Util BoundedRegex

/- The same address, whatever the unused bytes of the union are. -/
def IpAddressData.Same (a b : IpAddressData) : Prop :=
  a.ipv4 = b.ipv4 ∧ SameAddress b.ipv4 a.ipaddr b.ipaddr

def Subject.Same : Subject → Subject → Prop
  | ip a, ip b => a.Same b
  | eth e, eth f => e = f
  | ipAndEth a e, ipAndEth b f => a.Same b ∧ e = f
  | _, _ => False

def Outcome.Same : Outcome → Outcome → Prop
  | dns, dns => True
  | redirect a, redirect b => a.Same b
  | _, _ => False

def RuleValue.Same (v w : RuleValue) : Prop := v.subject.Same w.subject ∧ v.outcome.Same w.outcome

theorem RuleValue.Same.bytes_eq {v w : RuleValue} (h : v.Same w) : v.bytes = w.bytes := by
  obtain ⟨vs, vo⟩ := v
  obtain ⟨ws, wo⟩ := w
  obtain ⟨hs, ho⟩ := h
  have hsubject : vs.ruleType = ws.ruleType := by
    cases vs <;> cases ws <;> first | rfl | cases hs
  have houtcome : vo.actionType = wo.actionType := by
    cases vo <;> cases wo <;> first | rfl | cases ho
  rw [bytes, bytes, hsubject, houtcome]

section Tokens

/- A word of a line. -/
def Plain (t : Token) : Prop := t ≠ [] ∧ ∀ c ∈ t, isBlank c = false ∧ c ≠ '#' ∧ c ≠ '\n'

instance (t : Token) : Decidable (Plain t) :=
  decidable_of_iff
    (t ≠ [] ∧ (t.all fun c => !isBlank c && decide (c ≠ '#') && decide (c ≠ '\n')) = true)
    (by simp [Plain, and_assoc])

theorem words_plain {t : Token} (h : Plain t) : words t = [t] :=
  words_token h.1 fun c hc => (h.2 c hc).1

def AddressChar (c : Char) : Prop :=
  inRange '0' '9' c = true ∨ inRange 'a' 'f' c = true ∨ c = ':' ∨ c = '.'

instance (c : Char) : Decidable (AddressChar c) := inferInstanceAs (Decidable (_ ∨ _ ∨ _ ∨ _))

theorem AddressChar.ne {c d : Char} (h : AddressChar c) (hd : ¬ AddressChar d) : c ≠ d := by
  rintro rfl
  exact hd h

theorem plain_of_addressChars {t : Token} (hne : t ≠ []) (h : ∀ c ∈ t, AddressChar c) :
    Plain t := by
  refine ⟨hne, fun c hc => ⟨?_, (h c hc).ne (by decide), (h c hc).ne (by decide)⟩⟩
  simp [isBlank, (h c hc).ne (d := ' ') (by decide), (h c hc).ne (d := '\t') (by decide)]

theorem addressChar_octet (b : UInt8) : ∀ c ∈ Nat.toDigits 10 b.toNat, AddressChar c :=
  fun c hc => .inl (Regex.forall_of_mem_lang over_octet (digits_mem_octet b) c hc)

theorem addressChar_dotted (v : Vector UInt8 4) : ∀ c ∈ dotted v, AddressChar c := by
  have hdot : AddressChar '.' := by decide
  simp only [dotted, List.forall_mem_append, List.forall_mem_cons]
  exact ⟨addressChar_octet _, hdot, addressChar_octet _, hdot, addressChar_octet _, hdot,
    addressChar_octet _⟩

theorem addressChar_ip (inet : Inet) (a : IpAddress) (ipv4 : Bool) :
    ∀ c ∈ ipAddressToString inet a ipv4, AddressChar c := by
  cases ipv4 with
  | true =>
    rw [ipAddressToString, if_pos rfl, inet.ntop4_eq]
    exact addressChar_dotted _
  | false => exact inet.ntop6_chars a.v

theorem ipAddressToString_ne_nil (inet : Inet) (a : IpAddress) (ipv4 : Bool) :
    ipAddressToString inet a ipv4 ≠ [] := by
  cases ipv4 with
  | true =>
    rw [ipAddressToString, if_pos rfl, inet.ntop4_eq, dotted]
    simp
  | false =>
    intro hnil
    have hnil' : inet.ntop6 a.v = [] := hnil
    have hcolons := inet.ntop6_colons a.v
    simp [hnil'] at hcolons

theorem plain_ip (inet : Inet) (a : IpAddress) (ipv4 : Bool) :
    Plain (ipAddressToString inet a ipv4) :=
  plain_of_addressChars (ipAddressToString_ne_nil inet a ipv4) (addressChar_ip inet a ipv4)

theorem addressChar_digit : ∀ d : Fin 16, AddressChar (Nat.digitChar d) := by
  decide

theorem addressChar_hexByte (b : UInt8) : ∀ c ∈ hexByte b, AddressChar c := by
  have hb := b.toNat_lt
  simp only [hexByte, List.forall_mem_cons, List.not_mem_nil, false_implies, implies_true, and_true]
  exact ⟨addressChar_digit ⟨b.toNat / 16, by omega⟩, addressChar_digit ⟨b.toNat % 16, by omega⟩⟩

theorem plain_mac (e : EthAddress) : Plain (ethAddressToString e) := by
  have hcolon : AddressChar ':' := by decide
  apply plain_of_addressChars
  · simp [ethAddressToString, hexByte]
  · rw [ethAddressToString, List.forall_mem_append]
    refine ⟨addressChar_hexByte _, fun c hc => ?_⟩
    obtain ⟨b, _, hc⟩ := List.mem_flatMap.mp hc
    cases hc with
    | head => exact hcolon
    | tail _ hc => exact addressChar_hexByte b c hc

theorem words_tokens {ts : List Token} (h : ∀ t ∈ ts, Plain t) :
    words (ts.flatMap (· ++ [' '])) = ts := by
  induction ts with
  | nil => exact words_nil
  | cons t ts ih =>
    rw [List.forall_mem_cons] at h
    rw [List.flatMap_cons, List.append_assoc, List.singleton_append, words_append, ih h.2,
      words_plain h.1, List.singleton_append]

end Tokens

section Lines
variable (inet : Inet)

def IpAddressData.text (d : IpAddressData) : Token := ipAddressToString inet d.ipaddr d.ipv4

/- The options of a printed rule with their values. -/
def Subject.pairs : Subject → List (Token × Token)
  | ip d => [(optionIp, d.text inet)]
  | eth e => [(optionMac, ethAddressToString e)]
  | ipAndEth d e => [(optionIp, d.text inet), (optionMac, ethAddressToString e)]

def Outcome.pairs : Outcome → List (Token × Token)
  | dns => [(optionAction, optionDns)]
  | redirect d => [(optionAction, optionRedirect), (optionTarget, d.text inet)]

def RuleValue.pairs (v : RuleValue) : List (Token × Token) :=
  v.subject.pairs inet ++ v.outcome.pairs inet

def optionTokens (ps : List (Token × Token)) : List Token :=
  ps.flatMap fun p => ['-' :: '-' :: p.1, p.2]

def RuleValue.tokens (v : RuleValue) : List Token := optionAdd :: optionTokens (v.pairs inet)

/- Tokens with a blank behind each. -/
def spread (ts : List Token) : List Char := ts.flatMap (· ++ [' '])

def RuleValue.line (v : RuleValue) (i : Nat) : List Char :=
  spread (v.tokens inet) ++ '#' :: ' ' :: Nat.toDigits 10 i

def linesFrom : Nat → List RuleValue → List (List Char)
  | _, [] => []
  | i, v :: vs => v.line inet i :: linesFrom (i + 1) vs

theorem subject_text {data : List UInt8} {ref : RuleRef} {v : RuleValue}
    (h : ref.load data = some v) :
    ∃ ip mac, ipText inet data ref = some ip ∧ macText data ref = some mac ∧
      ip ++ mac ++ [' '] = spread (optionTokens (v.subject.pairs inet)) := by
  have hs := (load_parts h).1
  cases ht : ref.ruleType with
  | ipAddress =>
    rw [ht] at hs
    obtain ⟨d, hd, hs⟩ := Option.map_eq_some_iff.mp hs
    refine ⟨showParam optionIp false ++ d.text inet, [], ?_, ?_, ?_⟩
    · simp [ipText, ht, hd, RuleType.hasIp, IpAddressData.text]
    · simp [macText, ht, RuleType.hasEth]
    · rw [← hs]
      simp [Subject.pairs, optionTokens, spread, showParam]
  | ethAddress =>
    rw [ht] at hs
    obtain ⟨e, he, hs⟩ := Option.map_eq_some_iff.mp hs
    refine ⟨[], showParam optionMac false ++ ethAddressToString e, ?_, ?_, ?_⟩
    · simp [ipText, ht, RuleType.hasIp]
    · simp [macText, ht, he, RuleType.hasEth]
      rfl
    · rw [← hs]
      simp [Subject.pairs, optionTokens, spread, showParam]
  | ipAndEthAddress =>
    rw [ht] at hs
    obtain ⟨d, hd, hs⟩ := Option.bind_eq_some_iff.mp hs
    obtain ⟨e, he, hs⟩ := Option.map_eq_some_iff.mp hs
    refine ⟨showParam optionIp false ++ d.text inet, showParam optionMac true ++ ethAddressToString e,
      ?_, ?_, ?_⟩
    · simp [ipText, ht, hd, RuleType.hasIp, IpAddressData.text]
    · simp [macText, ht, he, RuleType.hasEth, RuleType.hasIp]
    · rw [← hs]
      simp [Subject.pairs, optionTokens, spread, showParam]

theorem outcome_text {data : List UInt8} {ref : RuleRef} {v : RuleValue}
    (h : ref.load data = some v) :
    ∃ target, targetText inet data ref = some target ∧
      ['-', '-'] ++ optionAction ++ [' '] ++ ref.actionType.text ++ target ++ [' '] =
        spread (optionTokens (v.outcome.pairs inet)) := by
  have hdns : ActionType.text .dns = optionDns := rfl
  have hredirect : ActionType.text .redirect = optionRedirect := rfl
  have ho := (load_parts h).2
  cases ha : ref.actionType with
  | dns =>
    rw [ha, Outcome.ofParts, Option.some.injEq] at ho
    refine ⟨[], by simp [targetText, ha], ?_⟩
    rw [← ho, hdns]
    simp [Outcome.pairs, optionTokens, spread]
  | redirect =>
    rw [ha, Outcome.ofParts] at ho
    obtain ⟨d, hd, ho⟩ := Option.map_eq_some_iff.mp ho
    refine ⟨showParam optionTarget true ++ d.text inet, ?_, ?_⟩
    · simp [targetText, ha, hd, IpAddressData.text]
    · rw [← ho, hredirect]
      simp [Outcome.pairs, optionTokens, spread, showParam]

theorem ruleLine_load {data : List UInt8} {ref : RuleRef} {v : RuleValue}
    (h : ref.load data = some v) (i : Nat) : ruleLine inet data ref i = some (v.line inet i) := by
  obtain ⟨ip, mac, hip, hmac, hsubject⟩ := subject_text inet h
  obtain ⟨target, htarget, houtcome⟩ := outcome_text inet h
  have hspread : spread (v.tokens inet) = optionAdd ++ ' ' :: (spread (optionTokens
      (v.subject.pairs inet)) ++ spread (optionTokens (v.outcome.pairs inet))) := by
    simp [RuleValue.tokens, RuleValue.pairs, optionTokens, spread]
  rw [ruleLine, hip, hmac, htarget, RuleValue.line, hspread, ← hsubject, ← houtcome]
  simp [showParam]

theorem ruleLines_read {data : List UInt8} {k t n : Nat} {vs : List RuleValue}
    (h : readRules data k t = some (vs, n)) (i : Nat) :
    ruleLines inet data k i t = some (linesFrom inet i vs) := by
  induction k generalizing t i vs n with
  | zero =>
    cases h
    rfl
  | succ k ih =>
    obtain ⟨⟨ref, t'⟩, hnext, h⟩ := Option.bind_eq_some_iff.mp h
    obtain ⟨v, hload, h⟩ := Option.bind_eq_some_iff.mp h
    obtain ⟨⟨vs', n'⟩, hrest, h⟩ := Option.bind_eq_some_iff.mp h
    cases h
    simp [ruleLines, hnext, ruleLine_load inet hload, ih hrest, linesFrom]

theorem plain_tokens (v : RuleValue) : ∀ t ∈ v.tokens inet, Plain t := by
  have hlit : ∀ t ∈ [optionAdd, '-' :: '-' :: optionIp, '-' :: '-' :: optionMac,
      '-' :: '-' :: optionAction, '-' :: '-' :: optionTarget, optionDns, optionRedirect],
      Plain t := by
    decide
  simp only [List.forall_mem_cons] at hlit
  obtain ⟨hadd, hip, hmac, haction, htarget, hdns, hredirect, _⟩ := hlit
  obtain ⟨s, o⟩ := v
  have hs : ∀ t ∈ optionTokens (s.pairs inet), Plain t := by
    cases s <;> simp [Subject.pairs, optionTokens, hip, hmac, plain_mac, IpAddressData.text, plain_ip]
  have ho : ∀ t ∈ optionTokens (o.pairs inet), Plain t := by
    cases o <;> simp [Outcome.pairs, optionTokens, haction, htarget, hdns, hredirect,
      IpAddressData.text, plain_ip]
  rw [RuleValue.tokens, List.forall_mem_cons, RuleValue.pairs, optionTokens, List.flatMap_append,
    List.forall_mem_append]
  exact ⟨hadd, hs, ho⟩

end Lines

section Reading
variable (inet : Inet) (toIndex : Token → Option Nat) (locals : Locals)

theorem bindings_optionTokens (ps : List (Token × Token)) : bindings (optionTokens ps) = ps := by
  induction ps with
  | nil => rfl
  | cons p ps ih =>
    have hcons : bindings (optionTokens (p :: ps)) = p :: bindings (optionTokens ps) := rfl
    rw [hcons, ih]

theorem valueOf_optionTokens (name : Token) (ps : List (Token × Token)) :
    valueOf name (optionTokens ps) = ps.lookup name := by
  rw [valueOf, bindings_optionTokens]

def Outcome.target : Outcome → Option IpAddressData
  | dns => none
  | redirect d => some d

theorem lookup_ip (v : RuleValue) :
    (v.pairs inet).lookup optionIp = v.subject.ipd.map (·.text inet) := by
  obtain ⟨s, o⟩ := v
  cases s <;> cases o <;> rfl

theorem lookup_mac (v : RuleValue) :
    (v.pairs inet).lookup optionMac = v.subject.mac.map ethAddressToString := by
  obtain ⟨s, o⟩ := v
  cases s <;> cases o <;> rfl

theorem lookup_target (v : RuleValue) :
    (v.pairs inet).lookup optionTarget = v.outcome.target.map (·.text inet) := by
  obtain ⟨s, o⟩ := v
  cases s <;> cases o <;> rfl

theorem lookup_action (v : RuleValue) :
    (v.pairs inet).lookup optionAction = some v.outcome.actionType.text := by
  obtain ⟨s, o⟩ := v
  cases s <;> cases o <;> rfl

theorem lookup_index (v : RuleValue) : (v.pairs inet).lookup optionIndex = none := by
  obtain ⟨s, o⟩ := v
  cases s <;> cases o <;> rfl

theorem getActionType_text (a : ActionType) : getActionType a.text = .ok a := by
  cases a <;> rfl

theorem cStr_printed (a : IpAddress) (ipv4 : Bool) :
    cStr (ipAddressToString inet a ipv4) = ipAddressToString inet a ipv4 := by
  apply uncomment_of_notMem
  intro hmem
  exact (addressChar_ip inet a ipv4 _ hmem).ne (by decide) rfl

/-- A printed address of either family is read back, up to the bytes of the union that the
family does not use. -/
theorem parseIpAddress_printed (d : IpAddressData) (optName : Token) (before : IpAddress) :
    ∃ ipaddr, parseIpAddress inet (d.text inet) optName before = .ok (d.ipv4, ipaddr) ∧
      SameAddress d.ipv4 ipaddr d.ipaddr := by
  obtain ⟨ipv4, a⟩ := d
  have hc := cStr_printed inet a ipv4
  cases ipv4 with
  | true =>
    have htype : getIpAddressType (ipAddressToString inet a true) = .ipv4 := by
      rw [ipAddressToString, if_pos rfl, inet.ntop4_eq, getIpAddressType, if_pos (ipRegex4_dotted _)]
    refine ⟨before.setIpv4 a, ?_, ?_⟩
    · simp only [parseIpAddress, IpAddressData.text, htype, toIpAddress, if_pos, hc]
      simp only [ipAddressToString, if_pos, inet.pton4_ntop4, Option.map_some]
      rfl
    · rw [← ipv4_eq_iff]
      exact before.ipv4_setIpv4 a
  | false =>
    have htype : getIpAddressType (ipAddressToString inet a false) ≠ .ipv4 := by
      have hno : ipRegex4.regexMatch (ipAddressToString inet a false) = false :=
        ipRegex4_ntop6 inet a.v
      rw [getIpAddressType, if_neg (by rw [hno]; decide)]
      split_ifs <;> decide
    refine ⟨a, ?_, fun _ _ => rfl⟩
    have hread : toIpAddress inet (ipAddressToString inet a false) false before = some a := by
      rw [toIpAddress, if_neg (by decide), hc, ipAddressToString, if_neg (by decide),
        inet.pton6_ntop6]
      rfl
    cases ht : getIpAddressType (ipAddressToString inet a false) with
    | ipv4 => exact absurd ht htype
    | ipv6 => simp only [parseIpAddress, IpAddressData.text, ht, hread]
    | none => simp only [parseIpAddress, IpAddressData.text, ht, hread]

theorem readIpd_printed (d : IpAddressData) (optName : Token) (before : IpAddressObject) :
    ∃ o, readIpd inet optName before (some (d.text inet)) = .ok (some o) ∧
      o.toIpAddressData.Same d := by
  obtain ⟨ipaddr, hparse, hsame⟩ := parseIpAddress_printed inet d optName before.ipaddr
  refine ⟨⟨⟨d.ipv4, ipaddr⟩, before.padding⟩, ?_, rfl, hsame⟩
  simp only [readIpd, hparse]
  rfl

theorem readMac_printed {e : EthAddress} (h : MacHasF e) (before : EthAddress) :
    readMac before (some (ethAddressToString e)) = .ok (some e) := by
  rw [readMac, toEthAddress_printed, if_pos h]
  rfl

theorem readMac_refused {e : EthAddress} (h : ¬ MacHasF e) (before : EthAddress) :
    readMac before (some (ethAddressToString e)) =
      .error (.thrown ⟨.invalidOptionValue, optionMac, ethAddressToString e⟩) := by
  rw [readMac, toEthAddress_printed, if_neg h]
  rfl

/- An object read for a printed address, or none for none. -/
def ReadFor : Option IpAddressObject → Option IpAddressData → Prop :=
  Option.Rel fun o d => o.toIpAddressData.Same d

theorem readIpd_map (d : Option IpAddressData) (optName : Token) (before : IpAddressObject) :
    ∃ o, readIpd inet optName before (d.map (·.text inet)) = .ok o ∧ ReadFor o d := by
  cases d with
  | none => exact ⟨none, rfl, .none⟩
  | some d =>
    obtain ⟨o, hread, hsame⟩ := readIpd_printed inet d optName before
    exact ⟨some o, hread, .some hsame⟩

theorem chooseType_read {s : Subject} {ipd : Option IpAddressObject} (h : ReadFor ipd s.ipd) :
    chooseType ipd s.mac = .ok s.ruleType := by
  cases s <;> cases h <;> rfl

/- Every MAC address of the rule has a digit f. -/
def RuleValue.Reads (v : RuleValue) : Prop := ∀ e ∈ v.subject.mac, MacHasF e

instance (v : RuleValue) : Decidable v.Reads := inferInstanceAs (Decidable (∀ e ∈ _, MacHasF e))

theorem readMac_map {v : RuleValue} (hv : v.Reads) (before : EthAddress) :
    readMac before (v.subject.mac.map ethAddressToString) = .ok v.subject.mac := by
  cases hm : v.subject.mac with
  | none => rfl
  | some e => exact readMac_printed (hv e hm) before

/- The arguments of AppendRule for a printed rule. -/
def readRule (v : RuleValue) (ipd target : Option IpAddressObject) : Rule where
  ruleType := v.subject.ruleType
  actionType := v.outcome.actionType
  ipd := some (ipd.getD locals.ipd)
  eth := some (v.subject.mac.getD locals.eth)
  target := some (target.getD locals.target)
  ipd_isSome _ := rfl
  eth_isSome _ := rfl
  target_isSome _ := rfl

theorem readRule_same {v : RuleValue} {ipd target : Option IpAddressObject}
    (hip : ReadFor ipd v.subject.ipd) (htarget : ReadFor target v.outcome.target) :
    (readRule locals v ipd target).value.Same v := by
  obtain ⟨s, o⟩ := v
  constructor
  · cases s with
    | ip d =>
      cases hip with
      | some hip => cases o <;> exact hip
    | eth e => cases o <;> rfl
    | ipAndEth d e =>
      cases hip with
      | some hip => cases o <;> exact ⟨hip, rfl⟩
  · cases o with
    | dns => cases s <;> trivial
    | redirect d =>
      cases htarget with
      | some htarget => cases s <;> exact htarget

/-- A printed rule is appended again, up to unused bytes, if its MAC address can be read. -/
theorem parseAdd_printed {v : RuleValue} (hv : v.Reads) (rd : RuleData) :
    ∃ r : Rule, r.value.Same v ∧
      parseAdd inet toIndex locals (valuesOf (optionTokens (v.pairs inet))) rd = exitFor (rd.appendRule r) := by
  obtain ⟨ipd, hipd, hip⟩ := readIpd_map inet v.subject.ipd optionIp locals.ipd
  obtain ⟨target, htarget, ht⟩ := readIpd_map inet v.outcome.target optionTarget locals.target
  refine ⟨readRule locals v ipd target, readRule_same locals hip ht, ?_⟩
  simp only [parseAdd, required, valuesOf, valueOf_optionTokens, lookup_index, lookup_ip, lookup_mac,
    lookup_target, lookup_action, hipd, htarget, readMac_map hv]
  simp only [readIndex, bind, Except.bind, getActionType_text, ↓reduceIte, chooseType_read hip]
  rfl

theorem parseAdd_refused {v : RuleValue} (hv : ¬ v.Reads) (rd : RuleData) :
    ∃ e, parseAdd inet toIndex locals (valuesOf (optionTokens (v.pairs inet))) rd = .error e := by
  obtain ⟨ipd, hipd, _⟩ := readIpd_map inet v.subject.ipd optionIp locals.ipd
  simp only [RuleValue.Reads, not_forall] at hv
  obtain ⟨e, he, hf⟩ := hv
  refine ⟨.thrown ⟨.invalidOptionValue, optionMac, ethAddressToString e⟩, ?_⟩
  simp only [parseAdd, valuesOf, valueOf_optionTokens, lookup_index, lookup_ip, lookup_mac, hipd,
    Option.mem_def.mp he, Option.map_some, readMac_refused hf]
  rfl

end Reading

section Loading
variable (inet : Inet) (toIndex : Token → Option Nat) (locals : Nat → Locals)

/- What one line leads to, given its tokens. -/
theorem loadLines_tokens {line : List Char} {ts : List Token}
    (hline : uncomment '#' line ≠ []) (hwords : words (uncomment '#' line) = ts)
    (lines : List (List Char)) (n : Nat) (rd : RuleData) :
    loadLines inet toIndex locals (line :: lines) n rd =
      afterLine (loadLines inet toIndex locals lines (n + 1))
        (parse inet toIndex (locals n) plainOptions false ts rd) := by
  have hrules : words optionRules = [optionRules] := words_plain (by decide)
  simp only [loadLines, if_neg hline]
  rw [words_append, hrules, hwords, List.singleton_append, List.tail_cons]

theorem uncomment_line (v : RuleValue) (i : Nat) :
    uncomment '#' (v.line inet i) = spread (v.tokens inet) := by
  apply uncomment_append
  intro hmem
  obtain ⟨t, ht, hmem⟩ := List.mem_flatMap.mp hmem
  rw [List.mem_append, List.mem_singleton] at hmem
  cases hmem with
  | inl hmem => exact ((plain_tokens inet v t ht).2 '#' hmem).2.1 rfl
  | inr hmem => exact absurd hmem (by decide)

theorem parse_tokens (locals : Locals) (v : RuleValue) (rd : RuleData) :
    parse inet toIndex locals plainOptions false (v.tokens inet) rd =
      parseAdd inet toIndex locals (valuesOf (optionTokens (v.pairs inet))) rd := by
  have hfind : (v.tokens inet).find? (fun t => t.head? ≠ some '-') = some optionAdd :=
    List.find?_cons_of_pos (by decide)
  simp only [parse, plainOptions, hfind, if_pos]
  rfl

theorem loadLines_rule (v : RuleValue) (i : Nat) (lines : List (List Char)) (n : Nat)
    (rd : RuleData) :
    loadLines inet toIndex locals (v.line inet i :: lines) n rd =
      afterLine (loadLines inet toIndex locals lines (n + 1))
        (parseAdd inet toIndex (locals n) (valuesOf (optionTokens (v.pairs inet))) rd) := by
  have hline := uncomment_line inet v i
  have hne : uncomment '#' (v.line inet i) ≠ [] := by
    rw [hline, spread, RuleValue.tokens, List.flatMap_cons]
    exact List.append_ne_nil_of_left_ne_nil (by decide) _
  have hwords : words (uncomment '#' (v.line inet i)) = v.tokens inet := by
    rw [hline]
    exact words_tokens (plain_tokens inet v)
  rw [loadLines_tokens inet toIndex locals hne hwords, parse_tokens]

/-- Lines of rules that can be read append these rules, up to unused bytes. -/
theorem loadLines_rules {vs : List RuleValue} (hvs : ∀ v ∈ vs, v.Reads) (i : Nat)
    (lines : List (List Char)) (n : Nat) {rd : RuleData} {l : RuleList} (h : Represents rd l)
    (hfit : l.bytes + (vs.map RuleValue.bytes).sum ≤ dataSize) :
    ∃ rd' vs', List.Forall₂ RuleValue.Same vs' vs ∧
      Represents rd' { l with rules := l.rules ++ vs' } ∧
      loadLines inet toIndex locals (linesFrom inet i vs ++ lines) n rd =
        loadLines inet toIndex locals lines (n + vs.length) rd' := by
  induction vs generalizing i n rd l with
  | nil =>
    refine ⟨rd, [], .nil, ?_, rfl⟩
    rw [List.append_nil]
    exact h
  | cons v vs ih =>
    rw [List.forall_mem_cons] at hvs
    rw [List.map_cons, List.sum_cons] at hfit
    obtain ⟨r, hsame, hparse⟩ := parseAdd_printed inet toIndex (locals n) hvs.1 rd
    have hbytes : r.bytes = v.bytes := by rw [← r.bytes_value, hsame.bytes_eq]
    have hroom : l.bytes + r.bytes ≤ dataSize := by omega
    obtain ⟨rd₁, hcall, hrep⟩ := h.append r
    rw [decide_eq_true hroom] at hcall
    have happend : rd.appendRule r = some (true, rd₁) := by
      obtain ⟨⟨o, rd₂⟩, hr, heq⟩ := Option.map_eq_some_iff.mp hcall
      cases heq
      exact hr
    rw [RuleList.next, if_pos hroom] at hrep
    have hsum : RuleList.bytes { l with rules := l.rules ++ [r.value] } = l.bytes + v.bytes := by
      simp [RuleList.bytes, hsame.bytes_eq]
    obtain ⟨rd', vs', hall, hrep', hload⟩ := ih hvs.2 (i + 1) (n + 1) hrep (by rw [hsum]; omega)
    refine ⟨rd', r.value :: vs', .cons hsame hall, ?_, ?_⟩
    · simpa using hrep'
    · rw [linesFrom, List.cons_append, loadLines_rule, hparse, happend]
      simp only [exitFor, afterLine, hload, List.length_cons]
      congr 1
      omega

/- On a table without rules, the lines of all rules of another table fit. -/
theorem loadLines_stored {rd rd₀ : RuleData} {l : RuleList} (h : Represents rd l)
    (h₀ : rd₀.Stores []) (hvs : ∀ v ∈ l.rules, v.Reads) (lines : List (List Char)) :
    ∃ rd₁ vs', List.Forall₂ RuleValue.Same vs' l.rules ∧ Represents rd₁ ⟨vs', rd₀.policy⟩ ∧
      loadLines inet toIndex locals (linesFrom inet 0 l.rules ++ lines) 1 rd₀ =
        loadLines inet toIndex locals lines (1 + l.rules.length) rd₁ := by
  have hrep₀ : Represents rd₀ ⟨[], rd₀.policy⟩ := ⟨[], h₀, rfl, rfl⟩
  have hfit : RuleList.bytes ⟨[], rd₀.policy⟩ + (l.rules.map RuleValue.bytes).sum ≤ dataSize := by
    rw [RuleList.bytes, List.map_nil, List.sum_nil, Nat.zero_add]
    exact h.bytes_le
  exact loadLines_rules inet toIndex locals hvs 0 lines 1 hrep₀ hfit

/-- A line of a rule that cannot be read ends the loading. -/
theorem loadLines_refused {vs : List RuleValue} (hvs : ¬ ∀ v ∈ vs, v.Reads) (i : Nat)
    (lines : List (List Char)) (n : Nat) (rd : RuleData) (rd' : RuleData) :
    loadLines inet toIndex locals (linesFrom inet i vs ++ lines) n rd ≠ .ok (true, rd') := by
  induction vs generalizing i n rd with
  | nil => exact absurd (by nofun) hvs
  | cons v vs ih =>
    rw [List.forall_mem_cons] at hvs
    rw [linesFrom, List.cons_append, loadLines_rule]
    by_cases hv : v.Reads
    · obtain ⟨r, _, hparse⟩ := parseAdd_printed inet toIndex (locals n) hv rd
      rw [hparse]
      cases hr : rd.appendRule r with
      | none => nofun
      | some p =>
        obtain ⟨o, rd₁⟩ := p
        cases o with
        | false => nofun
        | true => exact ih (fun h => hvs ⟨hv, h⟩) (i + 1) (n + 1) rd₁
    · obtain ⟨e, hparse⟩ := parseAdd_refused inet toIndex (locals n) hv rd
      rw [hparse]
      nofun

def Policy.pairs (policy : Policy) : List (Token × Token) :=
  (optionAction, policy.action.text) ::
    if policy.action = .redirect then
      [(optionTarget4, ipAddressToString inet policy.targetIpv4 true),
        (optionTarget6, ipAddressToString inet policy.targetIpv6 false)]
    else []

theorem words_blank (text : List Char) : words (' ' :: text) = words text := words_append [] text

theorem words_policyLine (policy : Policy) :
    words (policyLine inet policy) = optionPolicy :: optionTokens (policy.pairs inet) := by
  have hlit : ∀ t ∈ [optionPolicy, ['-', '-'] ++ optionAction, ['-', '-'] ++ optionTarget4,
      ['-', '-'] ++ optionTarget6, ActionType.text .dns, ActionType.text .redirect],
      Plain t := by
    decide
  simp only [List.forall_mem_cons] at hlit
  obtain ⟨hpolicy, haction, htarget4, htarget6, hdns, hredirect, _⟩ := hlit
  cases ha : policy.action with
  | dns =>
    have hline : policyLine inet policy = optionPolicy ++ ' ' :: ' ' :: ((['-', '-'] ++
        optionAction) ++ ' ' :: ' ' :: ActionType.text .dns) := by
      simp [policyLine, showParam, ha]
    rw [hline, words_append, words_blank, words_append, words_blank, words_plain hpolicy,
      words_plain haction, words_plain hdns]
    simp [Policy.pairs, optionTokens, ha]
  | redirect =>
    have hline : policyLine inet policy = optionPolicy ++ ' ' :: ' ' :: ((['-', '-'] ++
        optionAction) ++ ' ' :: ' ' :: (ActionType.text .redirect ++ ' ' :: ((['-', '-'] ++
          optionTarget4) ++ ' ' :: (ipAddressToString inet policy.targetIpv4 true ++ ' ' ::
            ((['-', '-'] ++ optionTarget6) ++ ' ' ::
              ipAddressToString inet policy.targetIpv6 false))))) := by
      simp [policyLine, showParam, ha]
    rw [hline, words_append, words_blank, words_append, words_blank, words_append, words_append,
      words_append, words_append, words_plain hpolicy, words_plain haction, words_plain hredirect,
      words_plain htarget4, words_plain htarget6, words_plain (plain_ip inet _ true),
      words_plain (plain_ip inet _ false)]
    simp [Policy.pairs, optionTokens, ha]

theorem showParam_chars {what : Token} (h : Plain what) :
    ∀ c ∈ showParam what true, c ≠ '#' ∧ c ≠ '\n' := by
  rw [showParam, if_pos rfl]
  simp only [List.forall_mem_append, List.forall_mem_cons]
  exact ⟨⟨by decide, nofun⟩, ⟨⟨by decide, by decide, nofun⟩, fun c hc => (h.2 c hc).2⟩, by decide,
    nofun⟩

theorem policyLine_chars (policy : Policy) : ∀ c ∈ policyLine inet policy, c ≠ '#' ∧ c ≠ '\n' := by
  have hplain : ∀ t : Token, Plain t → ∀ c ∈ t, c ≠ '#' ∧ c ≠ '\n' := fun t ht c hc => (ht.2 c hc).2
  have hblank : ∀ c ∈ [' '], c ≠ '#' ∧ c ≠ '\n' := List.forall_mem_singleton.mpr (by decide)
  have hpolicy := hplain optionPolicy (by decide)
  have haction : ∀ c ∈ showParam optionAction true, c ≠ '#' ∧ c ≠ '\n' :=
    showParam_chars (by decide)
  have hdns := hplain (ActionType.text .dns) (by decide)
  have hredirect := hplain (ActionType.text .redirect) (by decide)
  have htarget4 : ∀ c ∈ showParam optionTarget4 true, c ≠ '#' ∧ c ≠ '\n' :=
    showParam_chars (by decide)
  have htarget6 : ∀ c ∈ showParam optionTarget6 true, c ≠ '#' ∧ c ≠ '\n' :=
    showParam_chars (by decide)
  have hip : ∀ a ipv4, ∀ c ∈ ipAddressToString inet a ipv4, c ≠ '#' ∧ c ≠ '\n' :=
    fun a ipv4 c hc => ((plain_ip inet a ipv4).2 c hc).2
  cases ha : policy.action with
  | dns =>
    rw [policyLine, ha, if_neg (by decide), List.append_nil]
    simp only [List.forall_mem_append]
    exact ⟨⟨⟨⟨hpolicy, hblank⟩, haction⟩, hblank⟩, hdns⟩
  | redirect =>
    rw [policyLine, ha, if_pos rfl]
    simp only [List.forall_mem_append]
    exact ⟨⟨⟨⟨⟨hpolicy, hblank⟩, haction⟩, hblank⟩, hredirect⟩, ⟨htarget4, hip _ _⟩, htarget6, hip _ _⟩

theorem line_chars (v : RuleValue) (i : Nat) : ∀ c ∈ v.line inet i, c ≠ '\n' := by
  rw [RuleValue.line, List.forall_mem_append, List.forall_mem_cons, List.forall_mem_cons]
  refine ⟨fun c hc => ?_, by decide, by decide, fun c hc => ?_⟩
  · obtain ⟨t, ht, hc⟩ := List.mem_flatMap.mp hc
    rw [List.mem_append, List.mem_singleton] at hc
    cases hc with
    | inl hc => exact ((plain_tokens inet v t ht).2 c hc).2.2
    | inr hc =>
      rw [hc]
      decide
  · have hdigit := Nat.isDigit_of_mem_toDigits (by decide) (by decide) hc
    rintro rfl
    exact absurd hdigit (by decide)

theorem linesFrom_chars (vs : List RuleValue) (i : Nat) :
    ∀ line ∈ linesFrom inet i vs, '\n' ∉ line := by
  induction vs generalizing i with
  | nil => nofun
  | cons v vs ih =>
    rw [linesFrom, List.forall_mem_cons]
    exact ⟨fun hmem => line_chars inet v i '\n' hmem rfl, ih (i + 1)⟩

/- The table is saved as its lines, and they are loaded one by one. -/
theorem save_load {rd : RuleData} {l : RuleList} (h : Represents rd l) (rd₀ : RuleData) :
    ∃ text, save inet rd = some text ∧
      load inet toIndex locals text rd₀ = loadLines inet toIndex locals
        (linesFrom inet 0 l.rules ++ [policyLine inet rd.policy, "# end".toList]) 1 rd₀ := by
  have hlines := ruleLines_read inet h.read 0
  refine ⟨_, by rw [save, hlines]; rfl, ?_⟩
  have hchars : ∀ line ∈ "# start".toList :: (linesFrom inet 0 l.rules ++
      [policyLine inet rd.policy, "# end".toList]), '\n' ∉ line := by
    rw [List.forall_mem_cons, List.forall_mem_append, List.forall_mem_cons,
      List.forall_mem_singleton]
    refine ⟨by decide, linesFrom_chars inet l.rules 0, fun hmem => ?_, by decide⟩
    exact (policyLine_chars inet rd.policy '\n' hmem).2 rfl
  have hstart : uncomment '#' "# start".toList = [] := by decide
  rw [load, getlines_lines '\n' hchars]
  simp only [loadLines, hstart, ↓reduceIte]

theorem loadLines_policy (policy : Policy) (n : Nat) (rd : RuleData) :
    loadLines inet toIndex locals [policyLine inet policy, "# end".toList] n rd =
      afterLine (fun rd => .ok (true, rd))
        (parsePolicy inet (locals n) (valuesOf (optionTokens (policy.pairs inet))) rd) := by
  have hun : uncomment '#' (policyLine inet policy) = policyLine inet policy :=
    uncomment_of_notMem fun hmem => (policyLine_chars inet policy '#' hmem).1 rfl
  have hwords := words_policyLine inet policy
  have hne : policyLine inet policy ≠ [] := by
    intro hnil
    rw [hnil, words_nil] at hwords
    cases hwords
  have hend : uncomment '#' "# end".toList = [] := by decide
  rw [← hun] at hwords hne
  have hfind : (optionPolicy :: optionTokens (policy.pairs inet)).find?
      (fun t => t.head? ≠ some '-') = some optionPolicy := List.find?_cons_of_pos (by decide)
  have hrest : loadLines inet toIndex locals ["# end".toList] (n + 1) = fun rd => .ok (true, rd) := by
    funext rd
    simp only [loadLines, hend, ↓reduceIte]
  have hparse : parse inet toIndex (locals n) plainOptions false (optionPolicy :: optionTokens (policy.pairs inet)) rd =
      parsePolicy inet (locals n) (valuesOf (optionTokens (policy.pairs inet))) rd := by
    simp only [parse, plainOptions, hfind]
    rfl
  rw [loadLines_tokens inet toIndex locals hne hwords, hrest, hparse]

/-- A printed policy is set again if it redirects; the line of the other one has no targets
and is refused. -/
theorem parsePolicy_redirect (locals : Locals) {policy : Policy} (h : policy.action = .redirect)
    (rd : RuleData) :
    ∃ ipaddr4 ipaddr6, SameAddress true ipaddr4 policy.targetIpv4 ∧
      SameAddress false ipaddr6 policy.targetIpv6 ∧
      parsePolicy inet locals (valuesOf (optionTokens (policy.pairs inet))) rd =
        .ok (.exitWithNoError, (rd.setPolicy .redirect ipaddr4 ipaddr6).2) := by
  obtain ⟨a4, hparse4, hsame4⟩ := parseIpAddress_printed inet ⟨true, policy.targetIpv4⟩
    optionTarget4 locals.ipaddr4
  obtain ⟨a6, hparse6, hsame6⟩ := parseIpAddress_printed inet ⟨false, policy.targetIpv6⟩
    optionTarget6 locals.ipaddr6
  rw [IpAddressData.text] at hparse4 hparse6
  refine ⟨a4, a6, hsame4, hsame6, ?_⟩
  have hpairs : policy.pairs inet = [(optionAction, ActionType.text .redirect),
      (optionTarget4, ipAddressToString inet policy.targetIpv4 true),
      (optionTarget6, ipAddressToString inet policy.targetIpv6 false)] := by
    simp [Policy.pairs, h]
  have haction : (policy.pairs inet).lookup optionAction = some (ActionType.text .redirect) := by
    rw [hpairs]
    rfl
  have htarget4 : (policy.pairs inet).lookup optionTarget4 =
      some (ipAddressToString inet policy.targetIpv4 true) := by
    rw [hpairs]
    rfl
  have htarget6 : (policy.pairs inet).lookup optionTarget6 =
      some (ipAddressToString inet policy.targetIpv6 false) := by
    rw [hpairs]
    rfl
  simp only [parsePolicy, required, valuesOf, valueOf_optionTokens, haction, htarget4, htarget6, bind,
    Except.bind, getActionType_text, hparse4, hparse6]
  rfl

theorem parsePolicy_dns (locals : Locals) {policy : Policy} (h : policy.action = .dns)
    (rd : RuleData) :
    parsePolicy inet locals (valuesOf (optionTokens (policy.pairs inet))) rd =
      .error (.thrown ⟨.atLeastOneValueRequired, optionTarget4, []⟩) := by
  have hpairs : policy.pairs inet = [(optionAction, ActionType.text .dns)] := by
    simp [Policy.pairs, h]
  rw [hpairs]
  rfl

/- What is saved from one table and loaded into another, line by line without an error, is
   there again: the rules in their order and the policy, with its targets if it redirects. -/
def Restores (rd rd₀ : RuleData) : Prop :=
  ∃ text rd' vs n vs' n', save inet rd = some text ∧
    load inet toIndex locals text rd₀ = .ok (true, rd') ∧
    readRules rd.data rd.size 0 = some (vs, n) ∧ readRules rd'.data rd'.size 0 = some (vs', n') ∧
    List.Forall₂ RuleValue.Same vs' vs ∧ rd'.policy.action = rd.policy.action ∧
    (rd.policy.action = .redirect →
      SameAddress true rd'.policy.targetIpv4 rd.policy.targetIpv4 ∧
      SameAddress false rd'.policy.targetIpv6 rd.policy.targetIpv6)

/- The policy redirects, and every MAC address among the rules has a digit f. -/
def RuleData.Loadable (rd : RuleData) : Prop :=
  rd.policy.action = .redirect ∧
    ∀ vs n, readRules rd.data rd.size 0 = some (vs, n) → ∀ v ∈ vs, v.Reads

theorem restores_of_loadable {rd rd₀ : RuleData} {l : RuleList} (h : Represents rd l)
    (h₀ : rd₀.Stores []) (hp : rd.policy.action = .redirect) (hvs : ∀ v ∈ l.rules, v.Reads) :
    Restores inet toIndex locals rd rd₀ := by
  obtain ⟨text, hsave, hload⟩ := save_load inet toIndex locals h rd₀
  obtain ⟨rd₁, vs', hsame, hrep₁, hrules⟩ := loadLines_stored inet toIndex locals h h₀ hvs
    [policyLine inet rd.policy, "# end".toList]
  obtain ⟨a4, a6, hsame4, hsame6, hparse⟩ := parsePolicy_redirect inet
    (locals (1 + l.rules.length)) hp rd₁
  rw [hrules, loadLines_policy, hparse] at hload
  obtain ⟨rd', o, hset, hrep'⟩ := hrep₁.step (.setPolicy .redirect a4 a6) nofun
  cases hset
  exact ⟨text, _, _, _, _, _, hsave, hload, h.read, hrep'.read, hsame, hp.symm,
    fun _ => ⟨hsame4, hsame6⟩⟩

theorem loadable_of_restores {rd rd₀ : RuleData} {l : RuleList} (h : Represents rd l)
    (h₀ : rd₀.Stores []) (hr : Restores inet toIndex locals rd rd₀) :
    rd.policy.action = .redirect ∧ ∀ v ∈ l.rules, v.Reads := by
  obtain ⟨text, rd', _, _, _, _, hsave, hload, _⟩ := hr
  obtain ⟨text', hsave', hload'⟩ := save_load inet toIndex locals h rd₀
  rw [hsave] at hsave'
  cases hsave'
  rw [hload'] at hload
  have hvs : ∀ v ∈ l.rules, v.Reads := by
    by_contra hvs
    exact loadLines_refused inet toIndex locals hvs 0 _ 1 rd₀ rd' hload
  refine ⟨?_, hvs⟩
  obtain ⟨rd₁, _, _, _, hrules⟩ := loadLines_stored inet toIndex locals h h₀ hvs
    [policyLine inet rd.policy, "# end".toList]
  cases ha : rd.policy.action with
  | redirect => rfl
  | dns =>
    rw [hrules, loadLines_policy, parsePolicy_dns inet _ ha] at hload
    cases hload

/-- After any calls but insertions, the rules and the policy are restored from the saved text
on a table without rules exactly when the policy redirects and every MAC address among the
rules has a digit f. -/
theorem restores_iff {calls : List Call} (hcalls : ∀ c ∈ calls, ¬ c.isInsert) {rd : RuleData}
    {outs : List Bool} (hrun : Runs.run RuleData.exec RuleData.zeroed calls = some (rd, outs))
    {rd₀ : RuleData} (h₀ : rd₀.Stores []) :
    Restores inet toIndex locals rd rd₀ ↔ rd.Loadable := by
  obtain ⟨rd', outs', hrun', h⟩ := represents_calls hcalls
  rw [hrun] at hrun'
  cases hrun'
  constructor
  · intro hr
    obtain ⟨hp, hvs⟩ := loadable_of_restores inet toIndex locals h h₀ hr
    refine ⟨hp, fun vs n hread => ?_⟩
    rw [h.read] at hread
    cases hread
    exact hvs
  · intro hl
    exact restores_of_loadable inet toIndex locals h h₀ hl.1 (hl.2 _ _ h.read)

end Loading

section PlainInet

def decimal (text : List Char) : Option UInt8 :=
  let n := text.foldl (fun n c => n * 10 + (c.toNat - '0'.toNat)) 0
  if text ≠ [] ∧ text.all (inRange '0' '9') ∧ n < 256 then some (UInt8.ofNat n) else none

def unhex : List Char → Option (List UInt8)
  | [] => some []
  | [_] => none
  | a :: b :: rest => do
    let x ← hexValue a
    let y ← hexValue b
    let bs ← unhex rest
    pure (UInt8.ofNat (16 * x + y) :: bs)

/- Four numbers with dots between them, each read by number. -/
def quadBy (number : List Char → Option UInt8) (text : List Char) : Option (Vector UInt8 4) :=
  match text.splitOn '.' with
  | [p, q, r, s] => do pure #v[← number p, ← number q, ← number r, ← number s]
  | _ => none

def pton4 (text : List Char) : Option (Vector UInt8 4) := quadBy decimal text

/- The bytes in twos, each two as four digits. -/
def groups : List UInt8 → List (List Char)
  | a :: b :: bs => (hexByte a ++ hexByte b) :: groups bs
  | _ => []

/- Eight groups with colons between them. -/
def ntop6 (v : Vector UInt8 16) : List Char := List.intercalate [':'] (groups v.toList)

def pton6 (text : List Char) : Option (Vector UInt8 16) := do
  let bs ← unhex (text.filter (· ≠ ':'))
  if h : bs.length = 16 then some ⟨bs.toArray, h⟩ else none

theorem decimal_digits : ∀ n : Fin 256, decimal (Nat.toDigits 10 n) = some (UInt8.ofNat n) := by
  decide +kernel

theorem decimal_toDigits (b : UInt8) : decimal (Nat.toDigits 10 b.toNat) = some b := by
  have h := decimal_digits ⟨b.toNat, b.toNat_lt⟩
  rwa [UInt8.ofNat_toNat] at h

theorem dot_free (b : UInt8) : ∀ c ∈ Nat.toDigits 10 b.toNat, (c == '.') = false := by
  intro c hc
  have hd := Regex.forall_of_mem_lang over_octet (digits_mem_octet b) c hc
  rw [beq_eq_false_iff_ne]
  rintro rfl
  exact absurd hd (by decide)

theorem splitOn_dotted (a b c d : UInt8) :
    (dotted #v[a, b, c, d]).splitOn '.' = [Nat.toDigits 10 a.toNat, Nat.toDigits 10 b.toNat,
      Nat.toDigits 10 c.toNat, Nat.toDigits 10 d.toNat] := by
  simp only [dotted, List.splitOn_eq_splitOnP]
  rw [List.splitOnP_append_cons_of_forall_mem (dot_free _) '.' rfl,
    List.splitOnP_append_cons_of_forall_mem (dot_free _) '.' rfl,
    List.splitOnP_append_cons_of_forall_mem (dot_free _) '.' rfl,
    List.splitOnP_eq_singleton (dot_free _)]
  rfl

theorem quadBy_dotted {number : List Char → Option UInt8}
    (h : ∀ b : UInt8, number (Nat.toDigits 10 b.toNat) = some b) (v : Vector UInt8 4) :
    quadBy number (dotted v) = some v := by
  obtain ⟨a, b, c, d, rfl⟩ := exists_four v
  simp only [quadBy, splitOn_dotted, h]
  rfl

theorem hexValue_digit : ∀ d : Fin 16, hexValue (Nat.digitChar d) = some d.val := by
  decide

theorem unhex_hexBytes (bs : List UInt8) : unhex (bs.flatMap hexByte) = some bs := by
  induction bs with
  | nil => rfl
  | cons b bs ih =>
    have hb := b.toNat_lt
    have hhi := hexValue_digit ⟨b.toNat / 16, by omega⟩
    have hlo := hexValue_digit ⟨b.toNat % 16, by omega⟩
    have hcons : (b :: bs).flatMap hexByte = Nat.digitChar (b.toNat / 16) ::
        Nat.digitChar (b.toNat % 16) :: bs.flatMap hexByte := rfl
    rw [hcons, unhex, hhi, hlo, ih]
    simp only [Option.bind_eq_bind, Option.bind_some, Nat.div_add_mod, UInt8.ofNat_toNat]
    rfl

theorem filter_hexByte (b : UInt8) : (hexByte b).filter (· ≠ ':') = hexByte b := by
  apply List.filter_eq_self.mpr
  intro c hc
  rw [decide_eq_true_eq]
  rintro rfl
  exact colon_notMem_hexByte b hc

theorem colon_notMem_groups (bs : List UInt8) : ∀ g ∈ groups bs, ':' ∉ g := by
  induction bs using groups.induct with
  | case1 a b bs ih =>
    rw [groups, List.forall_mem_cons]
    refine ⟨fun h => ?_, ih⟩
    exact (List.mem_append.mp h).elim (colon_notMem_hexByte a) (colon_notMem_hexByte b)
  | case2 => simp [groups]

theorem splitOn_ntop6 (v : Vector UInt8 16) : (ntop6 v).splitOn ':' = groups v.toList := by
  apply List.splitOn_intercalate ':' (colon_notMem_groups _)
  rw [toList_sixteen]
  exact List.cons_ne_nil _ _

theorem filter_ntop6 (v : Vector UInt8 16) :
    (ntop6 v).filter (· ≠ ':') = v.toList.flatMap hexByte := by
  have hcolon : [':'].filter (· ≠ ':') = [] := by decide
  rw [ntop6, toList_sixteen]
  simp only [groups, List.intercalate_cons_cons, List.intercalate_singleton, List.filter_append,
    hcolon, filter_hexByte, List.flatMap_cons, List.flatMap_nil, List.append_assoc,
    List.append_nil, List.nil_append]

theorem pton6_ntop6 (v : Vector UInt8 16) : pton6 (ntop6 v) = some v := by
  have harray : v.toList.toArray = v.toArray := Array.toArray_toList
  rw [pton6, filter_ntop6, unhex_hexBytes]
  simp [harray]

theorem addressChar_ntop6 (v : Vector UInt8 16) : ∀ c ∈ ntop6 v, AddressChar c := by
  intro c hc
  by_cases hcolon : c = ':'
  · rw [hcolon]
    decide
  · have hmem : c ∈ (ntop6 v).filter (· ≠ ':') := List.mem_filter.mpr ⟨hc, by simpa using hcolon⟩
    rw [filter_ntop6] at hmem
    obtain ⟨b, _, hmem⟩ := List.mem_flatMap.mp hmem
    exact addressChar_hexByte b c hmem

/- An inet_ntop that leaves out no zeros; it prints what the real one prints for addresses
   without a group that starts with a zero. -/
def plainInet : Inet where
  ntop4 := dotted
  ntop6 := ntop6
  pton4 := pton4
  pton6 := pton6
  pton4_ntop4 := quadBy_dotted decimal_toDigits
  pton6_ntop6 := pton6_ntop6
  ntop4_eq _ := rfl
  ntop6_chars := addressChar_ntop6
  ntop6_colons v := by
    right
    have hlength := length_pieces ':' (ntop6 v)
    rw [splitOn_ntop6, toList_sixteen] at hlength
    simp only [groups, List.length_cons, List.length_nil] at hlength
    omega

def zeroLocals : Locals :=
  ⟨sampleIp, sampleIp, ⟨Vector.replicate 6 0⟩, ⟨Vector.replicate 16 0⟩, ⟨Vector.replicate 16 0⟩⟩

def sampleIpv6 : IpAddressObject where
  ipv4 := false
  ipaddr := ⟨#v[0x20, 0x01, 0x1d, 0xb8, 0x11, 0x11, 0x22, 0x22, 0x33, 0x33, 0x44, 0x44, 0x55, 0x55,
    0x66, 0x66]⟩
  padding := #v[0, 0, 0]

/- An IPv6 client with a MAC address that has a digit f, redirected. -/
def sampleBoth : Rule where
  ruleType := .ipAndEthAddress
  actionType := .redirect
  ipd := some sampleIpv6
  eth := some ⟨#v[2, 0, 0, 0x1f, 0, 1]⟩
  target := some sampleIpv6
  ipd_isSome _ := rfl
  eth_isSome _ := rfl
  target_isSome _ := rfl

def savedCalls : List Call :=
  [.appendRule sampleRedirect, .appendRule sampleEth, .deleteRule 1, .appendRule sampleBoth,
    .setPolicy .redirect sampleIp.ipaddr sampleIpv6.ipaddr]

theorem restores_iff_savedCalls : ∃ rd outs,
    Runs.run RuleData.exec RuleData.zeroed savedCalls = some (rd, outs) ∧ rd.size = 2 ∧
      rd.Loadable ∧ Restores plainInet (fun _ => none) (fun _ => zeroLocals) rd RuleData.zeroed := by
  have hcalls : ∀ c ∈ savedCalls, ¬ c.isInsert := by
    simp [savedCalls, Call.isInsert]
  obtain ⟨rd, outs, hrun, h⟩ := represents_calls hcalls
  have hiff := restores_iff plainInet (fun _ => none) (fun _ => zeroLocals) hcalls hrun
    RuleData.zeroed_stores
  have hload : rd.Loadable := by
    refine ⟨by rw [h.policy_eq]; rfl, fun vs n hread => ?_⟩
    rw [h.read] at hread
    cases hread
    decide
  exact ⟨rd, outs, hrun, h.size_eq, hload, hiff.mpr hload⟩

/-- The text of the fresh table is not loaded, for want of targets in its line for the policy;
nor is that of a rule for the MAC address 02:00:00:00:00:01 under a policy that redirects. -/
theorem saved_rules_refused :
    ¬ Restores plainInet (fun _ => none) (fun _ => zeroLocals) RuleData.zeroed RuleData.zeroed ∧
    ∃ rd outs, Runs.run RuleData.exec RuleData.zeroed [.appendRule sampleEth,
        .setPolicy .redirect sampleIp.ipaddr sampleIpv6.ipaddr] = some (rd, outs) ∧
      rd.size = 1 ∧ rd.policy.action = .redirect ∧
      ¬ Restores plainInet (fun _ => none) (fun _ => zeroLocals) rd RuleData.zeroed := by
  constructor
  · intro hr
    have hp := (loadable_of_restores _ _ _ zeroed_represents RuleData.zeroed_stores hr).1
    cases hp
  · have hcalls : ∀ c ∈ [Call.appendRule sampleEth,
        .setPolicy .redirect sampleIp.ipaddr sampleIpv6.ipaddr], ¬ c.isInsert := by
      simp [Call.isInsert]
    obtain ⟨rd, outs, hrun, h⟩ := represents_calls hcalls
    refine ⟨rd, outs, hrun, h.size_eq, by rw [h.policy_eq]; rfl, fun hr => ?_⟩
    have hvs := (loadable_of_restores _ _ _ h RuleData.zeroed_stores hr).2
    exact absurd (hvs sampleEth.value List.mem_cons_self) (by decide)

end PlainInet

end DnsWrapper.Shm
