import DnsWrapper.IpClassify
import DnsWrapper.RuleView

/-! What the commands add and policy store, and where it comes from: the options, or whatever the
locals held that Parse does not initialise. -/
namespace DnsWrapper.Shm
open NetCommon TextSplit Util

section Read
variable (inet : Inet) (toIndex : Token → Option Nat)

/- The family that parseIpAddress takes a text to be of. -/
def readsV4 (t : Token) : Bool := decide (getIpAddressType t = .ipv4)

theorem parseIpAddress_readsV4 (t optName : Token) (before : IpAddress) :
    parseIpAddress inet t optName before =
      match toIpAddress inet t (readsV4 t) before with
      | some a => .ok (readsV4 t, a)
      | none => .error (.thrown ⟨.invalidOptionValue, optName, t⟩) := by
  rw [parseIpAddress, readsV4]
  cases getIpAddressType t <;> rfl

theorem toIpAddress_outcome (t : Token) (ipv4 : Bool) (a b : IpAddress) :
    (toIpAddress inet t ipv4 a).isSome = (toIpAddress inet t ipv4 b).isSome := by
  cases ipv4 <;> simp [toIpAddress]

/- The index and the rule that Parse hands to the engine for add. -/
def addRule (locals : Locals) (vm : Values) : Except Failure (Nat × Rule) := do
  let index ← readIndex toIndex (vm optionIndex)
  let ipd ← readIpd inet optionIp locals.ipd (vm optionIp)
  let eth ← readMac locals.eth (vm optionMac)
  let ruleType ← chooseType ipd eth
  let target ← readIpd inet optionTarget locals.target (vm optionTarget)
  let action ← required optionAction vm
  let actionType ← getActionType action
  pure (index, {
    ruleType, actionType
    ipd := some (ipd.getD locals.ipd)
    eth := some (eth.getD locals.eth)
    target := some (target.getD locals.target)
    ipd_isSome := fun _ => Option.isSome_some
    eth_isSome := fun _ => Option.isSome_some
    target_isSome := fun _ => Option.isSome_some })

/- Where a rule goes: SIZE_MAX stands for the end. -/
def place (rd : RuleData) (index : Nat) : Nat := if index = sizeMax then rd.size else index

theorem parseAdd_eq (locals : Locals) (vm : Values) (rd : RuleData) :
    parseAdd inet toIndex locals vm rd =
      addRule inet toIndex locals vm >>= fun x => exitFor (rd.insertRule x.2 (place rd x.1)) := by
  have hplace : ∀ (r : Rule) (index : Nat),
      (if index = sizeMax then rd.appendRule r else rd.insertRule r index) =
        rd.insertRule r (place rd index) := by
    intro r index
    rw [place]
    split_ifs <;> rfl
  simp only [parseAdd, addRule, hplace, bind_assoc, pure_bind]

/- The options of add that pass the checks, without the locals. -/
structure AddArgs where
  index : Nat
  ruleType : RuleType
  actionType : ActionType
  ip : Option Token
  mac : Option Token
  target : Option Token

def checkIp (optName : Token) : Option Token → Except Failure Unit
  | none => .ok ()
  | some t =>
    if (toIpAddress inet t (readsV4 t) ⟨Vector.replicate 16 0⟩).isSome then .ok ()
    else .error (.thrown ⟨.invalidOptionValue, optName, t⟩)

def checkMac (mac : Option Token) : Except Failure Unit :=
  (readMac ⟨Vector.replicate 6 0⟩ mac).map fun _ => ()

def typeFor (ip mac : Option Token) : Except Failure RuleType :=
  match ip, mac with
  | some _, none => .ok .ipAddress
  | none, some _ => .ok .ethAddress
  | some _, some _ => .ok .ipAndEthAddress
  | none, none => .error (.thrown ⟨.atLeastOneValueRequired,
      optionIp ++ " or ".toList ++ optionMac, []⟩)

def readArgs (vm : Values) : Except Failure AddArgs := do
  let index ← readIndex toIndex (vm optionIndex)
  let ip := vm optionIp
  checkIp inet optionIp ip
  let mac := vm optionMac
  checkMac mac
  let ruleType ← typeFor ip mac
  let target := vm optionTarget
  checkIp inet optionTarget target
  let action ← required optionAction vm
  let actionType ← getActionType action
  pure ⟨index, ruleType, actionType, ip, mac, target⟩

/- The locals with an accepted text read over them. -/
def overAddress (before : IpAddress) (t : Token) : IpAddress :=
  (toIpAddress inet t (readsV4 t) before).getD before

def overIp (before : IpAddressObject) (t : Token) : IpAddressObject where
  ipv4 := readsV4 t
  ipaddr := overAddress inet before.ipaddr t
  padding := before.padding

def overMac (before : EthAddress) (t : Token) : EthAddress :=
  match toEthAddress t before with
  | .ok (_, eth) => eth
  | .error _ => before

def AddArgs.rule (args : AddArgs) (locals : Locals) : Rule where
  ruleType := args.ruleType
  actionType := args.actionType
  ipd := some ((args.ip.map (overIp inet locals.ipd)).getD locals.ipd)
  eth := some ((args.mac.map (overMac locals.eth)).getD locals.eth)
  target := some ((args.target.map (overIp inet locals.target)).getD locals.target)
  ipd_isSome _ := rfl
  eth_isSome _ := rfl
  target_isSome _ := rfl

theorem readIpd_eq (optName : Token) (before : IpAddressObject) (t : Option Token) :
    readIpd inet optName before t =
      (checkIp inet optName t).map fun _ => t.map (overIp inet before) := by
  cases t with
  | none => rfl
  | some t =>
    have hsome := toIpAddress_outcome inet t (readsV4 t) before.ipaddr ⟨Vector.replicate 16 0⟩
    rw [readIpd, parseIpAddress_readsV4, checkIp, ← hsome]
    cases h : toIpAddress inet t (readsV4 t) before.ipaddr with
    | none => rfl
    | some a =>
      have hover : overIp inet before t = ⟨⟨readsV4 t, a⟩, before.padding⟩ := by
        rw [overIp, overAddress, h]
        rfl
      simp only [bind, Except.bind, Option.isSome_some, ↓reduceIte, Except.map, Option.map_some, hover]
      rfl

theorem toEthAddress_outcome (t : Token) (a b : EthAddress) :
    (toEthAddress t a).map (·.1) = (toEthAddress t b).map (·.1) := by
  rw [toEthAddress, toEthAddress]
  split_ifs
  · rfl
  · have hstore := storeTokens_outcome (getlines ':' t) 0 a b
    cases ha : storeTokens (getlines ':' t) 0 a with
    | error e =>
      cases hb : storeTokens (getlines ':' t) 0 b with
      | error e' =>
        rw [ha, hb] at hstore
        cases hstore
        rfl
      | ok y =>
        rw [ha, hb] at hstore
        cases hstore
    | ok x =>
      cases hb : storeTokens (getlines ':' t) 0 b with
      | error e' =>
        rw [ha, hb] at hstore
        cases hstore
      | ok y => rfl

theorem readMac_eq (before : EthAddress) (t : Option Token) :
    readMac before t = (checkMac t).map fun _ => t.map (overMac before) := by
  cases t with
  | none => rfl
  | some t =>
    have hcode := toEthAddress_outcome t before ⟨Vector.replicate 6 0⟩
    rw [checkMac, readMac, readMac, Option.map_some, overMac]
    cases h : toEthAddress t before with
    | error f =>
      cases h' : toEthAddress t ⟨Vector.replicate 6 0⟩ with
      | error f' =>
        rw [h, h'] at hcode
        cases hcode
        rfl
      | ok y =>
        rw [h, h'] at hcode
        cases hcode
    | ok x =>
      cases h' : toEthAddress t ⟨Vector.replicate 6 0⟩ with
      | error f' =>
        rw [h, h'] at hcode
        cases hcode
      | ok y =>
        rw [h, h'] at hcode
        have hfirst : x.1 = y.1 := Except.ok.inj hcode
        simp only [hfirst]
        split_ifs <;> rfl

theorem chooseType_eq (ip mac : Option Token) (f : Token → IpAddressObject)
    (g : Token → EthAddress) : chooseType (ip.map f) (mac.map g) = typeFor ip mac := by
  cases ip <;> cases mac <;> rfl

theorem addRule_eq (locals : Locals) (vm : Values) :
    addRule inet toIndex locals vm =
      (readArgs inet toIndex vm).map fun args => (args.index, args.rule inet locals) := by
  simp only [addRule, readArgs, readIpd_eq, readMac_eq, bind, Except.bind]
  cases readIndex toIndex (vm optionIndex) with
  | error e => rfl
  | ok index =>
    cases checkIp inet optionIp (vm optionIp) with
    | error e => rfl
    | ok _ =>
      cases checkMac (vm optionMac) with
      | error e => rfl
      | ok _ =>
        simp only [Except.map, chooseType_eq]
        cases typeFor (vm optionIp) (vm optionMac) with
        | error e => rfl
        | ok ruleType =>
          cases checkIp inet optionTarget (vm optionTarget) with
          | error e => rfl
          | ok _ =>
            cases required optionAction vm with
            | error e => rfl
            | ok action =>
              simp only
              cases getActionType action <;> rfl

end Read

section Leak
variable {inet : Inet}

/- Locals with the same byte all over. -/
def filledIp (b : UInt8) : IpAddressObject where
  ipv4 := true
  ipaddr := ⟨Vector.replicate 16 b⟩
  padding := Vector.replicate 3 b

def filled (b : UInt8) : Locals :=
  ⟨filledIp b, filledIp b, ⟨Vector.replicate 6 b⟩, ⟨Vector.replicate 16 b⟩, ⟨Vector.replicate 16 b⟩⟩

/- A text that passes the check is read over any contents. -/
theorem toIpAddress_checked {optName t : Token} (h : checkIp inet optName (some t) = .ok ())
    (before : IpAddress) : ∃ a, toIpAddress inet t (readsV4 t) before = some a := by
  apply Option.isSome_iff_exists.mp
  rw [toIpAddress_outcome inet t (readsV4 t) before ⟨Vector.replicate 16 0⟩]
  by_contra hnone
  rw [checkIp, if_neg hnone] at h
  cases h

theorem toIpAddress_v6 {t : Token} (h : readsV4 t = false) (a b : IpAddress) :
    toIpAddress inet t (readsV4 t) a = toIpAddress inet t (readsV4 t) b := by
  simp only [toIpAddress, h, Bool.false_eq_true, ↓reduceIte]

/- As IPv4 only the first four bytes of the union are written. -/
theorem toIpAddress_v4 {t : Token} (h : readsV4 t = true) {before a : IpAddress}
    (hread : toIpAddress inet t (readsV4 t) before = some a) :
    ∃ w, a = before.setWord 0 w ∧ ∀ b, toIpAddress inet t (readsV4 t) b = some (b.setWord 0 w) := by
  rw [h] at hread
  simp only [toIpAddress, ↓reduceIte, Option.map_eq_some_iff] at hread
  obtain ⟨w, hw, rfl⟩ := hread
  refine ⟨w, rfl, fun b => ?_⟩
  rw [h]
  simp [toIpAddress, hw]

theorem setIpv4_setWord (a b : IpAddress) (w : Vector UInt8 4) :
    a.setIpv4 (b.setWord 0 w) = a.setWord 0 w := by
  rw [IpAddress.setIpv4, IpAddress.ipv4Bytes_setWord]

/-- All of the union comes from the text exactly if that is not read as IPv4. -/
theorem overAddress_iff {optName t : Token} (h : checkIp inet optName (some t) = .ok ()) :
    (∀ b b', overAddress inet b t = overAddress inet b' t) ↔ readsV4 t = false := by
  constructor
  · intro hall
    rw [Bool.eq_false_iff]
    intro hv4
    obtain ⟨a, ha⟩ := toIpAddress_checked h ⟨Vector.replicate 16 0⟩
    obtain ⟨w, rfl, hw⟩ := toIpAddress_v4 hv4 ha
    have hsame := hall ⟨Vector.replicate 16 0⟩ ⟨Vector.replicate 16 1⟩
    simp only [overAddress, hw, Option.getD_some] at hsame
    have hbyte := congrArg (fun a : IpAddress => a.v[4]) hsame
    simp [IpAddress.setWord] at hbyte
  · intro hv6 b b'
    obtain ⟨a, ha⟩ := toIpAddress_checked h b'
    rw [overAddress, overAddress, toIpAddress_v6 hv6 b b', ha]
    rfl

theorem overIp_iff {optName t : Token} (h : checkIp inet optName (some t) = .ok ()) :
    (∀ b b', (overIp inet b t).toIpAddressData = (overIp inet b' t).toIpAddressData) ↔
      readsV4 t = false := by
  rw [← overAddress_iff h]
  constructor
  · intro hall b b'
    exact congrArg IpAddressData.ipaddr
      (hall { filledIp 0 with ipaddr := b } { filledIp 0 with ipaddr := b' })
  · intro hall b b'
    exact congrArg (IpAddressData.mk (readsV4 t)) (hall b.ipaddr b'.ipaddr)

/-- What is seen of an address to match comes from its text. -/
theorem seen_overIp {optName t : Token} (h : checkIp inet optName (some t) = .ok ())
    (b b' : IpAddressObject) :
    (overIp inet b t).toIpAddressData.seen = (overIp inet b' t).toIpAddressData.seen := by
  cases hv4 : readsV4 t with
  | true =>
    obtain ⟨a, ha⟩ := toIpAddress_checked h b.ipaddr
    obtain ⟨w, rfl, hall⟩ := toIpAddress_v4 hv4 ha
    simp only [overIp, overAddress, hall, Option.getD_some]
    rw [hv4, IpAddressData.seen, IpAddressData.seen, if_pos rfl, if_pos rfl, setIpv4_setWord,
      setIpv4_setWord]
  | false => rw [(overIp_iff h).mpr hv4 b b']

/- A MAC address that passes the check is stored piece by piece. -/
theorem overMac_checked {t : Token} (h : checkMac (some t) = .ok ()) (b : EthAddress) :
    storeTokens (getlines ':' t) 0 b = .ok (overMac b t) := by
  have hread := readMac_eq b (some t)
  rw [h, readMac] at hread
  cases hto : toEthAddress t b with
  | error f =>
    rw [hto] at hread
    cases hread
  | ok x =>
    rw [hto] at hread
    rw [overMac, hto]
    rw [toEthAddress] at hto
    split_ifs at hto with hmatch
    · cases hto
      cases hread
    · cases hstore : storeTokens (getlines ':' t) 0 b with
      | error f =>
        rw [hstore] at hto
        cases hto
      | ok stored =>
        rw [hstore] at hto
        cases hto
        rfl

/-- All six bytes come from the text exactly if it has six pieces. -/
theorem overMac_iff {t : Token} (h : checkMac (some t) = .ok ()) :
    (∀ b b', overMac b t = overMac b' t) ↔ (getlines ':' t).length = 6 := by
  have hbytes : ∀ b, _ := fun b => storeTokens_bytes (overMac_checked h b)
  constructor
  · intro hall
    have hle := (hbytes ⟨Vector.replicate 6 0⟩).1 (by decide)
    by_contra hne
    have hzero := (hbytes ⟨Vector.replicate 6 0⟩).2 5 (by decide)
    have hone := (hbytes ⟨Vector.replicate 6 1⟩).2 5 (by decide)
    rw [if_neg (by omega)] at hzero hone
    rw [hall _ ⟨Vector.replicate 6 1⟩, hone] at hzero
    simp at hzero
  · intro hsix b b'
    have hv : (overMac b t).v = (overMac b' t).v := by
      apply Vector.ext
      intro j hj
      rw [(hbytes b).2 j hj, (hbytes b').2 j hj, if_pos (by omega), if_pos (by omega)]
    exact EthAddress.mk.injEq _ _ ▸ hv

end Leak

section Failures
variable {α β : Type}

/- Of the ways not to return, those that are exceptions. -/
def Failure.IsException : Failure → Prop
  | thrown _ | options | index _ => True
  | eth f => f ≠ .overrun
  | memory | file => False

/- The ways in which a computation can go wrong. -/
def Raises (P : Failure → Prop) (x : Except Failure α) : Prop := ∀ e, x = .error e → P e

variable {P : Failure → Prop}

theorem raises_ok (a : α) : Raises P (.ok a) := nofun

theorem raises_error {e : Failure} (h : P e) : Raises P (.error e : Except Failure α) := by
  rintro _ ⟨⟩
  exact h

theorem raises_bind {x : Except Failure α} {f : α → Except Failure β} (hx : Raises P x)
    (hf : ∀ a, Raises P (f a)) : Raises P (x >>= f) := by
  cases x with
  | error e => exact raises_error (hx e rfl)
  | ok a => exact hf a

section Thrown
variable (hP : ∀ v, P (.thrown v))
include hP

theorem raises_required (name : Token) (vm : Values) : Raises P (required name vm) := by
  rw [required]
  cases vm name with
  | none => exact raises_error (hP _)
  | some v => exact raises_ok v

theorem raises_getActionType (action : Token) : Raises P (getActionType action) := by
  rw [getActionType]
  split_ifs
  · exact raises_ok _
  · exact raises_ok _
  · exact raises_error (hP _)

theorem raises_checkIp (inet : Inet) (optName : Token) (t : Option Token) :
    Raises P (checkIp inet optName t) := by
  cases t with
  | none => exact raises_ok _
  | some t =>
    rw [checkIp]
    split_ifs
    · exact raises_ok _
    · exact raises_error (hP _)

theorem raises_typeFor (ip mac : Option Token) : Raises P (typeFor ip mac) := by
  cases ip with
  | none =>
    cases mac with
    | none => exact raises_error (hP _)
    | some m => exact raises_ok _
  | some t => cases mac <;> exact raises_ok _

theorem raises_checkMac (heth : ∀ f, P (.eth f)) (t : Option Token) : Raises P (checkMac t) := by
  cases t with
  | none => exact raises_ok _
  | some t =>
    rw [checkMac, readMac]
    cases toEthAddress t ⟨Vector.replicate 6 0⟩ with
    | error f => exact raises_error (heth f)
    | ok x =>
      simp only
      split_ifs
      · exact raises_error (hP _)
      · exact raises_ok _

end Thrown

/- An exception, or a store behind a MAC address. -/
def Failure.OfOptions (e : Failure) : Prop := e ≠ .eth .overrun → e.IsException

theorem raises_readArgs (inet : Inet) (toIndex : Token → Option Nat) (vm : Values) :
    Raises Failure.OfOptions (readArgs inet toIndex vm) := by
  have hthrown : ∀ v, (Failure.thrown v).OfOptions := fun _ _ => trivial
  have heth : ∀ f, (Failure.eth f).OfOptions := fun f hne hf => hne (congrArg Failure.eth hf)
  have hindex : Raises Failure.OfOptions (readIndex toIndex (vm optionIndex)) := by
    cases vm optionIndex with
    | none => exact raises_ok _
    | some t =>
      rw [readIndex]
      cases toIndex t with
      | none => exact raises_error fun _ => trivial
      | some i => exact raises_ok i
  apply raises_bind hindex
  intro index
  apply raises_bind (raises_checkIp hthrown inet _ _)
  intro _
  apply raises_bind (raises_checkMac hthrown heth _)
  intro _
  apply raises_bind (raises_typeFor hthrown _ _)
  intro ruleType
  apply raises_bind (raises_checkIp hthrown inet _ _)
  intro _
  apply raises_bind (raises_required hthrown _ _)
  intro action
  apply raises_bind (raises_getActionType hthrown action)
  intro actionType
  exact raises_ok _

theorem of_bind_ok {ε : Type} {x : Except ε α} {f : α → Except ε β} {b : β}
    (h : x >>= f = .ok b) : ∃ a, x = .ok a ∧ f a = .ok b := by
  cases x with
  | error e => cases h
  | ok a => exact ⟨a, rfl, h⟩

end Failures

/- What is known of options that were read. -/
structure AddArgs.Checked (args : AddArgs) (inet : Inet) (vm : Values) : Prop where
  ruleType_eq : typeFor args.ip args.mac = .ok args.ruleType
  ip : checkIp inet optionIp args.ip = .ok ()
  mac : checkMac args.mac = .ok ()
  target : checkIp inet optionTarget args.target = .ok ()
  target_eq : vm optionTarget = args.target

theorem readArgs_checked {inet : Inet} {toIndex : Token → Option Nat} {vm : Values}
    {args : AddArgs} (h : readArgs inet toIndex vm = .ok args) : args.Checked inet vm := by
  obtain ⟨index, _, h⟩ := of_bind_ok h
  obtain ⟨_, hip, h⟩ := of_bind_ok h
  obtain ⟨_, hmac, h⟩ := of_bind_ok h
  obtain ⟨ruleType, htype, h⟩ := of_bind_ok h
  obtain ⟨_, htarget, h⟩ := of_bind_ok h
  obtain ⟨action, _, h⟩ := of_bind_ok h
  obtain ⟨actionType, _, h⟩ := of_bind_ok h
  cases h
  exact ⟨htype, hip, hmac, htarget, rfl⟩

namespace AddArgs
variable {inet : Inet} {vm : Values} {args : AddArgs}

theorem hasIp_iff (h : typeFor args.ip args.mac = .ok args.ruleType) :
    args.ruleType.hasIp = args.ip.isSome ∧ args.ruleType.hasEth = args.mac.isSome := by
  cases hip : args.ip <;> cases hmac : args.mac <;> rw [hip, hmac] at h
  · cases h
  · rw [← Except.ok.inj h]
    exact ⟨rfl, rfl⟩
  · rw [← Except.ok.inj h]
    exact ⟨rfl, rfl⟩
  · rw [← Except.ok.inj h]
    exact ⟨rfl, rfl⟩

theorem view_rule (args : AddArgs) (locals : Locals)
    (h : typeFor args.ip args.mac = .ok args.ruleType) :
    (args.rule inet locals).view = {
      ruleType := args.ruleType
      actionType := args.actionType
      ipd := args.ip.map fun t => (overIp inet locals.ipd t).toIpAddressData.seen
      eth := args.mac.map (overMac locals.eth)
      target := if args.actionType = .redirect then
          some ((args.target.map (overIp inet locals.target)).getD locals.target).toIpAddressData
        else none } := by
  obtain ⟨hip, hmac⟩ := hasIp_iff h
  rw [Rule.view]
  simp only [rule, hip, hmac]
  cases args.ip <;> cases args.mac <;> rfl

/- Where the rule comes from: a MAC address of six pieces, and for a redirection a target that is
   given and not read as IPv4. -/
def Settled (args : AddArgs) : Prop :=
  (∀ t, args.mac = some t → (getlines ':' t).length = 6) ∧
  (args.actionType = .redirect → ∃ t, args.target = some t ∧ readsV4 t = false)

/-- The rule that is stored looks the same whatever the locals held exactly if all of it comes
from the options. -/
theorem view_rule_iff (h : args.Checked inet vm) (hgiven : args.actionType = .redirect →
      args.target.isSome = true) :
    (∀ l l', (args.rule inet l).view = (args.rule inet l').view) ↔ args.Settled := by
  have hview := fun l => @view_rule inet args l h.ruleType_eq
  constructor
  · intro hall
    constructor
    · intro t ht
      refine (overMac_iff (ht ▸ h.mac)).mp fun b b' => ?_
      have heth := congrArg RuleView.eth (hall { filled 0 with eth := b } { filled 0 with eth := b' })
      rw [hview, hview, ht] at heth
      exact Option.some.inj heth
    · intro hredirect
      obtain ⟨t, ht⟩ := Option.isSome_iff_exists.mp (hgiven hredirect)
      refine ⟨t, ht, (overIp_iff (ht ▸ h.target)).mp fun b b' => ?_⟩
      have htarget := congrArg RuleView.target
        (hall { filled 0 with target := b } { filled 0 with target := b' })
      rw [hview, hview, ht] at htarget
      simpa [hredirect] using htarget
  · rintro ⟨hsix, hv6⟩ l l'
    have hip : (args.ip.map fun t => (overIp inet l.ipd t).toIpAddressData.seen) =
        args.ip.map fun t => (overIp inet l'.ipd t).toIpAddressData.seen := by
      cases ht : args.ip with
      | none => rw [Option.map_none, Option.map_none]
      | some t =>
        rw [Option.map_some, Option.map_some, seen_overIp (ht ▸ h.ip) l.ipd l'.ipd]
    have heth : args.mac.map (overMac l.eth) = args.mac.map (overMac l'.eth) := by
      cases ht : args.mac with
      | none => rw [Option.map_none, Option.map_none]
      | some t =>
        have hsame := (overMac_iff (ht ▸ h.mac)).mpr (hsix t ht) l.eth l'.eth
        rw [Option.map_some, Option.map_some, hsame]
    rw [hview, hview, hip, heth]
    by_cases hredirect : args.actionType = .redirect
    · obtain ⟨t, ht, hread⟩ := hv6 hredirect
      have hsame := (overIp_iff (ht ▸ h.target)).mpr hread l.target l'.target
      rw [ht]
      simp only [Option.map_some, Option.getD_some, hsame]
    · rw [if_neg hredirect, if_neg hredirect]

end AddArgs

section Policy
variable (inet : Inet)

/- The options of policy that pass the checks. -/
def readPolicy (vm : Values) : Except Failure (ActionType × Token × Token) := do
  let action ← required optionAction vm
  let actionType ← getActionType action
  let target4 ← required optionTarget4 vm
  checkIp inet optionTarget4 (some target4)
  let target6 ← required optionTarget6 vm
  checkIp inet optionTarget6 (some target6)
  pure (actionType, target4, target6)

theorem parseIpAddress_checked (t optName : Token) (before : IpAddress) :
    parseIpAddress inet t optName before =
      (checkIp inet optName (some t)).map fun _ => (readsV4 t, overAddress inet before t) := by
  have hsome := toIpAddress_outcome inet t (readsV4 t) before ⟨Vector.replicate 16 0⟩
  rw [parseIpAddress_readsV4, checkIp, ← hsome, overAddress]
  cases toIpAddress inet t (readsV4 t) before <;> rfl

theorem parsePolicy_eq (locals : Locals) (vm : Values) (rd : RuleData) :
    parsePolicy inet locals vm rd =
      (readPolicy inet vm).map fun (action, t4, t6) => (.exitWithNoError,
        { rd with policy := ⟨action, overAddress inet locals.ipaddr4 t4,
          overAddress inet locals.ipaddr6 t6⟩ }) := by
  simp only [parsePolicy, readPolicy, parseIpAddress_checked, bind, Except.bind]
  cases required optionAction vm with
  | error e => rfl
  | ok action =>
    simp only
    cases getActionType action with
    | error e => rfl
    | ok actionType =>
      simp only
      cases required optionTarget4 vm with
      | error e => rfl
      | ok t4 =>
        simp only
        cases checkIp inet optionTarget4 (some t4) with
        | error e => rfl
        | ok _ =>
          simp only [Except.map]
          cases required optionTarget6 vm with
          | error e => rfl
          | ok t6 =>
            simp only
            cases checkIp inet optionTarget6 (some t6) <;> rfl

theorem raises_readPolicy (vm : Values) :
    Raises Failure.IsException (readPolicy inet vm) := by
  have hthrown : ∀ v, (Failure.thrown v).IsException := fun _ => trivial
  apply raises_bind (raises_required hthrown _ _)
  intro action
  apply raises_bind (raises_getActionType hthrown action)
  intro actionType
  apply raises_bind (raises_required hthrown _ _)
  intro t4
  apply raises_bind (raises_checkIp hthrown inet _ _)
  intro _
  apply raises_bind (raises_required hthrown _ _)
  intro t6
  apply raises_bind (raises_checkIp hthrown inet _ _)
  intro _
  exact raises_ok _

/- What is known of options that were read. -/
theorem readPolicy_checked {vm : Values} {action : ActionType} {t4 t6 : Token}
    (h : readPolicy inet vm = .ok (action, t4, t6)) :
    vm optionTarget4 = some t4 ∧ checkIp inet optionTarget4 (some t4) = .ok () ∧
    vm optionTarget6 = some t6 ∧ checkIp inet optionTarget6 (some t6) = .ok () := by
  have hvalue : ∀ name t, required name vm = .ok t → vm name = some t := by
    intro name t ht
    rw [required] at ht
    cases hv : vm name with
    | none =>
      rw [hv] at ht
      cases ht
    | some v =>
      rw [hv] at ht
      cases ht
      rfl
  obtain ⟨_, _, h⟩ := of_bind_ok h
  obtain ⟨_, _, h⟩ := of_bind_ok h
  obtain ⟨_, h4, h⟩ := of_bind_ok h
  obtain ⟨_, hc4, h⟩ := of_bind_ok h
  obtain ⟨_, h6, h⟩ := of_bind_ok h
  obtain ⟨_, hc6, h⟩ := of_bind_ok h
  cases h
  exact ⟨hvalue _ _ h4, hc4, hvalue _ _ h6, hc6⟩

end Policy

/- How a command ends well: with an exception, an error or the help that was asked for and the
   table as it was, or with a table of which something is known. -/
inductive Settles (help : Bool) (rd : RuleData) (stored : RuleData → Prop) :
    Except Failure (ExitCode × RuleData) → Prop
  | thrown {e : Failure} : e.IsException → Settles help rd stored (.error e)
  | refused : Settles help rd stored (.ok (.exitWithError, rd))
  | helped : help = true → Settles help rd stored (.ok (.exitWithNoError, rd))
  | stored {rd' : RuleData} : stored rd' → Settles help rd stored (.ok (.exitWithNoError, rd'))

/-- A command decides by its arguments: it is rejected without a change or stores what is given,
and the tables that it leaves look the same whatever the locals held before. -/
structure ArgumentsDecide (help : Bool) (rd : RuleData) (given : Locals → RuleData → Prop)
    (command : Locals → Except Failure (ExitCode × RuleData)) : Prop where
  settles : ∀ locals, Settles help rd (given locals) (command locals)
  same : ∀ locals locals' rd₁ rd₂, command locals = .ok (.exitWithNoError, rd₁) →
    command locals' = .ok (.exitWithNoError, rd₂) → rd₁.view = rd₂.view

section Outcomes
variable {help : Bool} {rd : RuleData} {given : Locals → RuleData → Prop}
  {command : Locals → Except Failure (ExitCode × RuleData)}

/- A command that ends the same way for all locals, and one that always stores something. -/
theorem argumentsDecide_error_iff {e : Failure} (hrun : ∀ locals, command locals = .error e) :
    ArgumentsDecide help rd given command ↔ e.IsException := by
  constructor
  · intro h
    have hs := h.settles (filled 0)
    rw [hrun] at hs
    cases hs with
    | thrown hexception => exact hexception
  · intro hexception
    constructor
    · intro locals
      rw [hrun]
      exact .thrown hexception
    · intro l l' rd₁ rd₂ h₁
      rw [hrun] at h₁
      cases h₁

theorem argumentsDecide_refused (hrun : ∀ locals, command locals = .ok (.exitWithError, rd)) :
    ArgumentsDecide help rd given command := by
  constructor
  · intro locals
    rw [hrun]
    exact .refused
  · intro l l' rd₁ rd₂ h₁
    rw [hrun] at h₁
    cases h₁

theorem argumentsDecide_helped (hrun : ∀ locals, command locals = .ok (.exitWithNoError, rd)) :
    ArgumentsDecide true rd given command := by
  constructor
  · intro locals
    rw [hrun]
    exact .helped rfl
  · intro l l' rd₁ rd₂ h₁ h₂
    cases (hrun l).symm.trans h₁
    cases (hrun l').symm.trans h₂
    rfl

theorem argumentsDecide_stored_iff {after : Locals → RuleData}
    (hrun : ∀ locals, command locals = .ok (.exitWithNoError, after locals)) :
    ArgumentsDecide false rd given command ↔
      (∀ locals, given locals (after locals)) ∧ ∀ l l', (after l).view = (after l').view := by
  constructor
  · intro h
    refine ⟨fun locals => ?_, fun l l' => h.same l l' _ _ (hrun l) (hrun l')⟩
    have hs := h.settles locals
    rw [hrun] at hs
    cases hs with
    | helped hhelp => cases hhelp
    | stored hstored => exact hstored
  · rintro ⟨hgiven, hviews⟩
    constructor
    · intro locals
      rw [hrun]
      exact .stored (hgiven locals)
    · intro l l' rd₁ rd₂ h₁ h₂
      cases (hrun l).symm.trans h₁
      cases (hrun l').symm.trans h₂
      exact hviews l l'

/- A command with the values of its options, where program_options gives values. -/
def Given (x : Option Values) (given : Values → Locals → RuleData → Prop) (locals : Locals)
    (rd' : RuleData) : Prop :=
  ∃ vm, x = some vm ∧ given vm locals rd'

theorem argumentsDecide_values_iff {x : Option Values} {given : Values → Locals → RuleData → Prop}
    {command : Values → Locals → Except Failure (ExitCode × RuleData)} :
    ArgumentsDecide help rd (Given x given) (fun locals => withValues x fun vm => command vm locals) ↔
      ∀ vm, x = some vm → ArgumentsDecide help rd (given vm) (command vm) := by
  cases x with
  | none =>
    have hrun : ∀ locals, withValues none (fun vm => command vm locals) = .error .options :=
      fun _ => rfl
    rw [argumentsDecide_error_iff hrun]
    exact iff_of_true trivial nofun
  | some vm =>
    have hgiven : Given (some vm) given = given vm := by
      funext locals rd'
      simp [Given]
    simp [hgiven, withValues]

end Outcomes

section Commands
variable (inet : Inet) (toIndex : Token → Option Nat) (vm : Values) (rd : RuleData)

/- The rule stored by add has a target from --target if it redirects. -/
def TargetGiven (locals : Locals) (rd' : RuleData) : Prop :=
  ∃ index r, addRule inet toIndex locals vm = .ok (index, r) ∧
    rd.insertRule r (place rd index) = some (true, rd') ∧
    (r.actionType = .redirect → ∃ t d, vm optionTarget = some t ∧ r.target = some d ∧
      parseIpAddress inet t optionTarget locals.target.ipaddr = .ok (d.ipv4, d.ipaddr))

/- The targets of the policy are an IPv4 address from --target4 and an IPv6 one from --target6. -/
def TargetsGiven (locals : Locals) (rd' : RuleData) : Prop :=
  ∃ t4 t6, vm optionTarget4 = some t4 ∧ vm optionTarget6 = some t6 ∧
    parseIpAddress inet t4 optionTarget4 locals.ipaddr4 = .ok (true, rd'.policy.targetIpv4) ∧
    parseIpAddress inet t6 optionTarget6 locals.ipaddr6 = .ok (false, rd'.policy.targetIpv6)

/-- The options are refused by an exception, or the table refuses the rule, or it has room for it
and all of the rule comes from the options. -/
def AddFromOptions : Prop :=
  match readArgs inet toIndex vm with
  | .error e => e ≠ .eth .overrun
  | .ok args =>
    match rd.room (encodedBytes args.ruleType args.actionType) (place rd args.index) with
    | none => False
    | some false => True
    | some true => args.Settled

/-- The options are refused, or they ask for dns with a target of each family. -/
def PolicyFromOptions : Prop :=
  match readPolicy inet vm with
  | .error _ => True
  | .ok (action, t4, t6) => action = .dns ∧ readsV4 t4 = true ∧ readsV4 t6 = false

variable {inet toIndex vm rd}

section Add
variable {args : AddArgs} (hargs : readArgs inet toIndex vm = .ok args)
include hargs

theorem addRule_of_args (locals : Locals) :
    addRule inet toIndex locals vm = .ok (args.index, args.rule inet locals) := by
  rw [addRule_eq, hargs]
  rfl

theorem parseAdd_of_args (locals : Locals) :
    parseAdd inet toIndex locals vm rd =
      exitFor (rd.insertRule (args.rule inet locals) (place rd args.index)) := by
  rw [parseAdd_eq, addRule_of_args hargs]
  rfl

/- A stored redirection has a given target exactly if there is one among the options. -/
theorem targetGiven_iff {locals : Locals} {rd' : RuleData}
    (hcall : rd.insertRule (args.rule inet locals) (place rd args.index) = some (true, rd')) :
    TargetGiven inet toIndex vm rd locals rd' ↔
      (args.actionType = .redirect → args.target.isSome = true) := by
  have hchecked := readArgs_checked hargs
  have hrule := addRule_of_args hargs locals
  constructor
  · rintro ⟨index, r, hr, _, hgiven⟩ hredirect
    cases hrule.symm.trans hr
    obtain ⟨t, _, ht, _⟩ := hgiven hredirect
    rw [← hchecked.target_eq, ht]
    rfl
  · intro hsome
    refine ⟨args.index, _, hrule, hcall, fun hredirect => ?_⟩
    obtain ⟨t, ht⟩ := Option.isSome_iff_exists.mp (hsome hredirect)
    refine ⟨t, overIp inet locals.target t, hchecked.target_eq.trans ht, ?_, ?_⟩
    · simp only [AddArgs.rule, ht, Option.map_some, Option.getD_some]
    · have hcheck := hchecked.target
      rw [ht] at hcheck
      rw [parseIpAddress_checked, hcheck]
      rfl

theorem add_stored_iff (hlen : rd.data.length = dataSize)
    (hroom : rd.room (encodedBytes args.ruleType args.actionType) (place rd args.index) =
      some true) :
    ArgumentsDecide false rd (TargetGiven inet toIndex vm rd)
        (fun locals => parseAdd inet toIndex locals vm rd) ↔ args.Settled := by
  have hchecked := readArgs_checked hargs
  have hcall : ∀ locals, ∃ rd', rd.insertRule (args.rule inet locals) (place rd args.index) =
      some (true, rd') := by
    intro locals
    obtain ⟨_, _, _, _, _, _, _, _, h⟩ :=
      RuleData.insertRule_stored (r := args.rule inet locals) hlen hroom
    exact ⟨_, h⟩
  choose after hafter using hcall
  have hrun : ∀ locals, parseAdd inet toIndex locals vm rd =
      .ok (.exitWithNoError, after locals) := by
    intro locals
    rw [parseAdd_of_args hargs, hafter]
    rfl
  have hviews : ∀ l l', (after l).view = (after l').view ↔
      (args.rule inet l).view = (args.rule inet l').view := by
    intro l l'
    have htype : (args.rule inet l).ruleType = (args.rule inet l').ruleType := rfl
    have haction : (args.rule inet l).actionType = (args.rule inet l').actionType := rfl
    have hfits : rd.room (args.rule inet l).bytes (place rd args.index) = some true := hroom
    exact RuleData.view_insertRule_iff hlen htype haction hfits (hafter l) (hafter l')
  rw [argumentsDecide_stored_iff hrun]
  constructor
  · rintro ⟨hgiven, hsame⟩
    have htarget := (targetGiven_iff hargs (hafter (filled 0))).mp (hgiven (filled 0))
    refine (AddArgs.view_rule_iff hchecked htarget).mp fun l l' => ?_
    exact (hviews l l').mp (hsame l l')
  · intro hsettled
    have htarget : args.actionType = .redirect → args.target.isSome = true := by
      intro hredirect
      obtain ⟨t, ht, _⟩ := hsettled.2 hredirect
      rw [ht]
      rfl
    constructor
    · intro locals
      exact (targetGiven_iff hargs (hafter locals)).mpr htarget
    · intro l l'
      exact (hviews l l').mpr ((AddArgs.view_rule_iff hchecked htarget).mpr hsettled l l')

end Add

theorem add_iff (hlen : rd.data.length = dataSize) :
    ArgumentsDecide false rd (TargetGiven inet toIndex vm rd)
        (fun locals => parseAdd inet toIndex locals vm rd) ↔
      AddFromOptions inet toIndex vm rd := by
  rw [AddFromOptions]
  cases hargs : readArgs inet toIndex vm with
  | error e =>
    have hrun : ∀ locals, parseAdd inet toIndex locals vm rd = .error e := by
      intro locals
      rw [parseAdd_eq, addRule_eq, hargs]
      rfl
    rw [argumentsDecide_error_iff hrun]
    constructor
    · rintro hexception rfl
      exact hexception rfl
    · exact raises_readArgs inet toIndex vm e hargs
  | ok args =>
    simp only
    have hbytes : ∀ locals, (args.rule inet locals).bytes =
        encodedBytes args.ruleType args.actionType := fun _ => rfl
    cases hroom : rd.room (encodedBytes args.ruleType args.actionType) (place rd args.index) with
    | none =>
      have hrun : ∀ locals, parseAdd inet toIndex locals vm rd = .error .memory := by
        intro locals
        rw [← hbytes locals] at hroom
        rw [parseAdd_of_args hargs, RuleData.insertRule_outside hlen hroom]
        rfl
      rw [argumentsDecide_error_iff hrun]
      exact Iff.rfl
    | some fits =>
      cases fits with
      | true => exact add_stored_iff hargs hlen hroom
      | false =>
        have hrun : ∀ locals, parseAdd inet toIndex locals vm rd =
            .ok (.exitWithError, rd) := by
          intro locals
          rw [← hbytes locals] at hroom
          rw [parseAdd_of_args hargs, RuleData.insertRule_refused hroom]
          rfl
        exact iff_of_true (argumentsDecide_refused hrun) trivial

/- The targets of a policy that does not redirect are not seen. -/
theorem view_policy_dns (rd : RuleData) (a b c d : IpAddress) :
    RuleData.view { rd with policy := ⟨.dns, a, b⟩ } =
      RuleData.view { rd with policy := ⟨.dns, c, d⟩ } := by
  simp [RuleData.view, Policy.act]

/- The targets of a stored policy are given exactly if each text is one of its family. -/
theorem targetsGiven_iff {action : ActionType} {t4 t6 : Token}
    (hargs : readPolicy inet vm = .ok (action, t4, t6)) (locals : Locals) :
    TargetsGiven inet vm locals
        { rd with policy := ⟨action, overAddress inet locals.ipaddr4 t4,
          overAddress inet locals.ipaddr6 t6⟩ } ↔ readsV4 t4 = true ∧ readsV4 t6 = false := by
  obtain ⟨hv4, hc4, hv6, hc6⟩ := readPolicy_checked inet hargs
  have hread4 : parseIpAddress inet t4 optionTarget4 locals.ipaddr4 =
      .ok (readsV4 t4, overAddress inet locals.ipaddr4 t4) := by
    rw [parseIpAddress_checked, hc4]
    rfl
  have hread6 : parseIpAddress inet t6 optionTarget6 locals.ipaddr6 =
      .ok (readsV4 t6, overAddress inet locals.ipaddr6 t6) := by
    rw [parseIpAddress_checked, hc6]
    rfl
  constructor
  · rintro ⟨u4, u6, h4, h6, hp4, hp6⟩
    cases hv4.symm.trans h4
    cases hv6.symm.trans h6
    rw [hread4] at hp4
    rw [hread6] at hp6
    exact ⟨(Prod.mk.inj (Except.ok.inj hp4)).1, (Prod.mk.inj (Except.ok.inj hp6)).1⟩
  · rintro ⟨h4, h6⟩
    rw [h4] at hread4
    rw [h6] at hread6
    exact ⟨t4, t6, hv4, hv6, hread4, hread6⟩

theorem policy_iff :
    ArgumentsDecide false rd (TargetsGiven inet vm)
        (fun locals => parsePolicy inet locals vm rd) ↔
      PolicyFromOptions inet vm := by
  rw [PolicyFromOptions]
  cases hargs : readPolicy inet vm with
  | error e =>
    have hrun : ∀ locals, parsePolicy inet locals vm rd = .error e := by
      intro locals
      rw [parsePolicy_eq, hargs]
      rfl
    rw [argumentsDecide_error_iff hrun]
    exact iff_of_true (raises_readPolicy inet vm e hargs) trivial
  | ok x =>
    obtain ⟨action, t4, t6⟩ := x
    have hrun : ∀ locals, parsePolicy inet locals vm rd =
        .ok (.exitWithNoError, { rd with policy := ⟨action, overAddress inet locals.ipaddr4 t4,
          overAddress inet locals.ipaddr6 t6⟩ }) := by
      intro locals
      rw [parsePolicy_eq, hargs]
      rfl
    rw [argumentsDecide_stored_iff hrun]
    simp only [targetsGiven_iff hargs]
    constructor
    · rintro ⟨hgiven, hsame⟩
      obtain ⟨hread4, hread6⟩ := hgiven (filled 0)
      refine ⟨?_, hread4, hread6⟩
      cases action with
      | dns => rfl
      | redirect =>
        -- A redirection shows all of targetIpv4, of which the text gives four bytes.
        obtain ⟨_, hc4, _, _⟩ := readPolicy_checked inet hargs
        have hleak : readsV4 t4 = false := by
          refine (overAddress_iff hc4).mp fun b b' => ?_
          have hview := hsame { filled 0 with ipaddr4 := b } { filled 0 with ipaddr4 := b' }
          exact Action.redirect.inj (congrArg TableView.policy4 hview)
        rw [hread4] at hleak
        cases hleak
    · rintro ⟨rfl, hread⟩
      exact ⟨fun _ => hread, fun l l' => view_policy_dns rd _ _ _ _⟩

end Commands

section Parse
variable {po : ProgramOptions} {inet : Inet} {toIndex : Token → Option Nat} {help : Bool}
  {opts rest : List Token} {rd : RuleData}

theorem parse_add (h : po.command opts = some (some optionAdd, rest)) (locals : Locals) :
    parse inet toIndex locals po help opts rd =
      withValues (po.values addOptions rest.tail) fun vm =>
        if help then .ok (.exitWithNoError, rd) else parseAdd inet toIndex locals vm rd := by
  rw [parse, h]
  rfl

theorem parse_policy (h : po.command opts = some (some optionPolicy, rest)) (locals : Locals) :
    parse inet toIndex locals po help opts rd =
      withValues (po.values policyOptions rest.tail) fun vm =>
        if help then .ok (.exitWithNoError, rd) else parsePolicy inet locals vm rd := by
  rw [parse, h]
  rfl

end Parse

/- A redirection without a target, and a rule for a MAC address with all its groups. -/
def untargeted : List Token :=
  [optionAdd, "--ipaddr".toList, "192.168.0.7".toList, "--action".toList, "redirect".toList]

def untargetedArgs : AddArgs :=
  ⟨sizeMax, .ipAddress, .redirect, some "192.168.0.7".toList, none, none⟩

def fullMac : List Token :=
  [optionAdd, "--macaddr".toList, "02:00:00:00:00:0f".toList, "--action".toList, "dns".toList]

end DnsWrapper.Shm
