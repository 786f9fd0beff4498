import DnsWrapper.ByteRegion
import DnsWrapper.NetCommon

/-! The rule table of rule/shm.hpp: rules of several lengths, one behind the other in a
byte array, found only by walking it. An access outside the array is a fault, none. -/
namespace DnsWrapper.Shm
open ByteRegion ByteWriter ByteWord NetCommon

def dataSize : Nat := 8192
def sizeofRuleHeader : Nat := 8
def sizeofIpAddressData : Nat := 20
def sizeofEthAddress : Nat := 6

inductive ActionType where
  | dns | redirect
  deriving DecidableEq

inductive RuleType where
  | ipAddress | ethAddress | ipAndEthAddress
  deriving DecidableEq

namespace ActionType

def code : ActionType → UInt8
  | dns => 0
  | redirect => 1

/- A value that is none of the enumerators is a fault. -/
def ofCode (v : UInt32) : Option ActionType :=
  if v = 0 then some dns else if v = 1 then some redirect else none

end ActionType

namespace RuleType

def code : RuleType → UInt8
  | ipAddress => 0
  | ethAddress => 1
  | ipAndEthAddress => 2

def ofCode (v : UInt32) : Option RuleType :=
  if v = 0 then some ipAddress else if v = 1 then some ethAddress
  else if v = 2 then some ipAndEthAddress else none

def hasIp (t : RuleType) : Bool := t == ipAddress || t == ipAndEthAddress
def hasEth (t : RuleType) : Bool := t == ethAddress || t == ipAndEthAddress

end RuleType

structure IpAddressData where
  ipv4 : Bool
  ipaddr : IpAddress
  deriving DecidableEq

/- The object in memory, with the bytes of padding behind ipv4. -/
structure IpAddressObject extends IpAddressData where
  padding : Vector UInt8 3

def IpAddressObject.image (d : IpAddressObject) : List UInt8 :=
  d.ipv4.toUInt8 :: (d.padding.toList ++ d.ipaddr.v.toList)

/- The arguments of AppendRule and InsertRule; none is the null pointer. The parts that the
   types ask for are there. -/
structure Rule where
  ruleType : RuleType
  actionType : ActionType
  ipd : Option IpAddressObject
  eth : Option EthAddress
  target : Option IpAddressObject
  ipd_isSome : ruleType.hasIp = true → ipd.isSome = true
  eth_isSome : ruleType.hasEth = true → eth.isSome = true
  target_isSome : actionType = .redirect → target.isSome = true

/- What nextRule returns: offsets into the array instead of pointers. -/
structure RuleRef where
  ruleType : RuleType
  actionType : ActionType
  ipd : Option Nat
  eth : Option Nat
  target : Option Nat

structure Policy where
  action : ActionType
  targetIpv4 : IpAddress
  targetIpv6 : IpAddress

structure RuleData where
  policy : Policy
  size : Nat
  data : List UInt8

def load32 (data : List UInt8) (i : Nat) : Option UInt32 := do
  let a ← data[i]?
  let b ← data[i + 1]?
  let c ← data[i + 2]?
  let d ← data[i + 3]?
  pure (join32 d c b a)

def loadBytes (k : Nat) (data : List UInt8) (i : Nat) : Option (Vector UInt8 k) :=
  if h : i + k ≤ data.length then some (Vector.ofFn fun j => data[i + j.val]) else none

def loadIp (data : List UInt8) (i : Nat) : Option IpAddressData := do
  let b ← data[i]?
  let v ← loadBytes 16 data (i + 4)
  pure { ipv4 := b != 0, ipaddr := ⟨v⟩ }

def loadEth (data : List UInt8) (i : Nat) : Option EthAddress := do
  let v ← loadBytes 6 data i
  pure ⟨v⟩

/- The pointers of the reference and the position behind the rule. -/
def locate (ruleType : RuleType) (actionType : ActionType) (loc : Nat) : RuleRef × Nat :=
  let (ipd, loc) := if ruleType.hasIp then (some loc, loc + sizeofIpAddressData) else (none, loc)
  let (eth, loc) := if ruleType.hasEth then (some loc, loc + sizeofEthAddress) else (none, loc)
  let (target, loc) :=
    if actionType = .redirect then (some loc, loc + sizeofIpAddressData) else (none, loc)
  (⟨ruleType, actionType, ipd, eth, target⟩, loc)

def nextRule (data : List UInt8) (loc : Nat) : Option (RuleRef × Nat) := do
  let ruleType ← RuleType.ofCode (← load32 data loc)
  let actionType ← ActionType.ofCode (← load32 data (loc + 4))
  pure (locate ruleType actionType (loc + sizeofRuleHeader))

/- A loop that only calls nextRule. -/
def skip (data : List UInt8) : Nat → Nat → Option Nat
  | 0, loc => some loc
  | k + 1, loc => do
    let (_, loc) ← nextRule data loc
    skip data k loc

/- The bytes insertRules counts for one rule. -/
def encodedBytes (ruleType : RuleType) (actionType : ActionType) : Nat :=
  sizeofRuleHeader + (if ruleType.hasIp then sizeofIpAddressData else 0) +
    (if ruleType.hasEth then sizeofEthAddress else 0) +
    if actionType = .redirect then sizeofIpAddressData else 0

namespace Rule

def bytes (r : Rule) : Nat := encodedBytes r.ruleType r.actionType

def headerImage (r : Rule) : List UInt8 := [r.ruleType.code, 0, 0, 0, r.actionType.code, 0, 0, 0]

/- memcpy from a pointer; from the null pointer it is a fault. -/
def copy {α : Type} (image : α → List UInt8) : Option α → Writer
  | some a => putAll (image a)
  | none => ⟨fun _ _ => none⟩

def write (r : Rule) : Writer :=
  andThen (putAll r.headerImage)
    (andThen (if r.ruleType.hasIp then copy IpAddressObject.image r.ipd else done)
      (andThen (if r.ruleType.hasEth then copy (fun e => e.v.toList) r.eth else done)
        (if r.actionType = .redirect then copy IpAddressObject.image r.target else done)))

end Rule

namespace RuleData

/- A RuleData in zeroed memory. -/
def zeroed : RuleData where
  policy := ⟨.dns, ⟨Vector.replicate 16 0⟩, ⟨Vector.replicate 16 0⟩⟩
  size := 0
  data := List.replicate dataSize 0

def insertRules (rd : RuleData) (rules : List Rule) (index : Nat) : Option (Nat × RuleData) :=
  if index > rd.size then some (0, rd)
  else do
    let bytes := (rules.map Rule.bytes).sum
    let insertionPoint ← skip rd.data index 0
    let finish ← skip rd.data (rd.size - index) insertionPoint
    if finish + bytes > dataSize then some (0, rd)
    else do
      let data ← shiftUp bytes (insertionPoint + bytes) (finish - insertionPoint) rd.data
      let (data, _) ← (all Rule.write rules).run data insertionPoint
      some (rules.length, { rd with size := rd.size + rules.length, data })

def deleteRule (rd : RuleData) (index : Nat) : Option (Bool × RuleData) :=
  if rd.size = 0 ∨ index ≥ rd.size then some (false, rd)
  else if index = rd.size - 1 then some (true, { rd with size := rd.size - 1 })
  else do
    let deletionPoint ← skip rd.data index 0
    let (_, t) ← nextRule rd.data deletionPoint
    let bytes := t - deletionPoint
    let finish ← skip rd.data (rd.size - (index + 1)) t
    let data ← shiftDown bytes (finish - t) deletionPoint rd.data
    some (true, { rd with size := rd.size - 1, data })

def clearRules (rd : RuleData) : Bool × RuleData := (true, { rd with size := 0 })

def setPolicy (rd : RuleData) (action : ActionType) (targetIpv4 targetIpv6 : IpAddress) :
    Bool × RuleData := (true, { rd with policy := ⟨action, targetIpv4, targetIpv6⟩ })

def insertRule (rd : RuleData) (r : Rule) (index : Nat) : Option (Bool × RuleData) := do
  let (n, rd) ← rd.insertRules [r] index
  pure (n != 0, rd)

def appendRule (rd : RuleData) (r : Rule) : Option (Bool × RuleData) := rd.insertRule r rd.size

end RuleData
end DnsWrapper.Shm
