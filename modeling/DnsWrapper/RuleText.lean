import DnsWrapper.AddressText
import DnsWrapper.RuleEvaluate

/-! Rules as text: the output operator of the engine, the command parser, and the input
operator that feeds a file to it line by line. -/
namespace DnsWrapper.Shm
open NetCommon TextSplit Util

abbrev Token := List Char

def optionRules : Token := "rules".toList
def optionAdd : Token := "add".toList
def optionDelete : Token := "delete".toList
def optionClear : Token := "clear".toList
def optionList : Token := "list".toList
def optionPolicy : Token := "policy".toList
def optionLoad : Token := "load".toList
def optionSave : Token := "save".toList
def optionIndex : Token := "index".toList
def optionIp : Token := "ipaddr".toList
def optionMac : Token := "macaddr".toList
def optionAction : Token := "action".toList
def optionDns : Token := "dns".toList
def optionRedirect : Token := "redirect".toList
def optionTarget : Token := "target".toList
def optionTarget4 : Token := "target4".toList
def optionTarget6 : Token := "target6".toList
def optionFile : Token := "file".toList
def optionHelp : Token := "help".toList

def ActionType.text : ActionType → Token
  | dns => "dns".toList
  | redirect => "redirect".toList

def showParam (what : Token) (spaced : Bool) : List Char :=
  (if spaced then [' '] else []) ++ (['-', '-'] ++ what ++ [' '])

section Save
variable (inet : Inet)

/- The parts of a line that depend on the types of the rule. -/
def ipText (data : List UInt8) (r : RuleRef) : Option (List Char) :=
  if r.ruleType.hasIp then do
    let d ← r.ipd.bind (loadIp data)
    pure (showParam optionIp false ++ ipAddressToString inet d.ipaddr d.ipv4)
  else pure []

def macText (data : List UInt8) (r : RuleRef) : Option (List Char) :=
  if r.ruleType.hasEth then do
    let e ← r.eth.bind (loadEth data)
    pure (showParam optionMac r.ruleType.hasIp ++ ethAddressToString e)
  else pure []

def targetText (data : List UInt8) (r : RuleRef) : Option (List Char) :=
  if r.actionType = .redirect then do
    let d ← r.target.bind (loadIp data)
    pure (showParam optionTarget true ++ ipAddressToString inet d.ipaddr d.ipv4)
  else pure []

/- One turn of the loop of operator<<, up to the end of the line. -/
def ruleLine (data : List UInt8) (r : RuleRef) (i : Nat) : Option (List Char) := do
  let ip ← ipText inet data r
  let mac ← macText data r
  let target ← targetText inet data r
  pure (optionAdd ++ [' '] ++ ip ++ mac ++ (showParam optionAction true ++ r.actionType.text) ++
    target ++ " # ".toList ++ Nat.toDigits 10 i)

/- The loop with k rules to go, at rule i and position t. -/
def ruleLines (data : List UInt8) : Nat → Nat → Nat → Option (List (List Char))
  | 0, _, _ => some []
  | k + 1, i, t => do
    let (r, t) ← nextRule data t
    let line ← ruleLine inet data r i
    let lines ← ruleLines data k (i + 1) t
    pure (line :: lines)

def policyLine (policy : Policy) : List Char :=
  optionPolicy ++ [' '] ++ showParam optionAction true ++ [' '] ++ policy.action.text ++
    if policy.action = .redirect then
      showParam optionTarget4 true ++ ipAddressToString inet policy.targetIpv4 true ++
        (showParam optionTarget6 true ++ ipAddressToString inet policy.targetIpv6 false)
    else []

def save (rd : RuleData) : Option (List Char) := do
  let lines ← ruleLines inet rd.data rd.size 0 0
  pure (("# start".toList :: (lines ++ [policyLine inet rd.policy, "# end".toList])).flatMap
    (· ++ ['\n']))

end Save

inductive ErrorKind where
  | invalidOptionValue | atLeastOneValueRequired

structure ValidationError where
  kind : ErrorKind
  option : Token
  value : Token

/- How a command can fail to return: a validation_error, tokens that program_options refuses, a
   value of --index that is no number, an exception or store of ToEthAddress, an access outside
   the table. The commands that open a file are left out. -/
inductive Failure where
  | thrown (e : ValidationError)
  | options
  | index (value : Token)
  | eth (f : EthFault)
  | memory
  | file

inductive ExitCode where
  | exitWithNoError | exitWithError

/- What the uninitialised locals of Parse hold. -/
structure Locals where
  ipd : IpAddressObject
  target : IpAddressObject
  eth : EthAddress
  ipaddr4 : IpAddress
  ipaddr6 : IpAddress

/- The values of the options of one command, by their names. -/
abbrev Values := Token → Option Token

/-- What is used of boost::program_options; nothing where it throws. A line is split and its
tokens are collected, with the word rules as the first. Behind that word there can be a command;
the tokens collected then still hold it. At last the options that are described, each with its
letter, are given their values. -/
structure ProgramOptions where
  line : List Char → Option (List Token)
  command : List Token → Option (Option Token × List Token)
  values : List (Token × Char) → List Token → Option Values

def addOptions : List (Token × Char) :=
  [(optionHelp, 'h'), (optionIndex, 'n'), (optionIp, 'i'), (optionMac, 'm'), (optionAction, 'a'),
    (optionTarget, 't')]

def deleteOptions : List (Token × Char) := [(optionHelp, 'h'), (optionIndex, 'n')]

def policyOptions : List (Token × Char) :=
  [(optionHelp, 'h'), (optionAction, 'a'), (optionTarget4, '4'), (optionTarget6, '6')]

def fileOptions : List (Token × Char) := [(optionHelp, 'h'), (optionFile, 'f')]

/- Each --name with the token after it. -/
def bindings : List Token → List (Token × Token)
  | ('-' :: '-' :: name) :: value :: rest => (name, value) :: bindings rest
  | _ :: rest => bindings rest
  | [] => []

def valueOf (name : Token) (opts : List Token) : Option Token := (bindings opts).lookup name

def valuesOf (opts : List Token) : Values := fun name => valueOf name opts

/- Lines as save writes them: blanks between the tokens, and options as --name value. -/
def plainOptions : ProgramOptions where
  line text := some (words text)
  command opts := some (opts.find? fun t => t.head? ≠ some '-', opts)
  values _ opts := some (valuesOf opts)

def required (name : Token) (vm : Values) : Except Failure Token :=
  match vm name with
  | some value => .ok value
  | none => .error (.thrown ⟨.atLeastOneValueRequired, name, []⟩)

def withValues {α : Type} (vm : Option Values) (f : Values → Except Failure α) :
    Except Failure α :=
  match vm with
  | some vm => f vm
  | none => .error .options

def getActionType (action : Token) : Except Failure ActionType :=
  if action = optionDns then .ok .dns
  else if action = optionRedirect then .ok .redirect
  else .error (.thrown ⟨.invalidOptionValue, optionAction, action⟩)

section Parse
variable (inet : Inet) (toIndex : Token → Option Nat) (locals : Locals)

def parseIpAddress (ipa optName : Token) (ipaddr : IpAddress) :
    Except Failure (Bool × IpAddress) :=
  let ipv4 := match getIpAddressType ipa with
    | .ipv4 => true
    | .ipv6 => false
    | .none => false
  match toIpAddress inet ipa ipv4 ipaddr with
  | some ipaddr => .ok (ipv4, ipaddr)
  | none => .error (.thrown ⟨.invalidOptionValue, optName, ipa⟩)

def sizeMax : Nat := 2 ^ 64 - 1

def readIndex : Option Token → Except Failure Nat
  | none => .ok sizeMax
  | some t => match toIndex t with
    | some i => .ok i
    | none => .error (.index t)

def readIpd (optName : Token) (before : IpAddressObject) :
    Option Token → Except Failure (Option IpAddressObject)
  | none => .ok none
  | some t => do
    let (ipv4, ipaddr) ← parseIpAddress inet t optName before.ipaddr
    pure (some ⟨⟨ipv4, ipaddr⟩, before.padding⟩)

def readMac (before : EthAddress) : Option Token → Except Failure (Option EthAddress)
  | none => .ok none
  | some t => match toEthAddress t before with
    | .error f => .error (.eth f)
    | .ok (code, eth) =>
      if code ≠ 1 then .error (.thrown ⟨.invalidOptionValue, optionMac, t⟩) else .ok (some eth)

def chooseType (ipd : Option IpAddressObject) (eth : Option EthAddress) :
    Except Failure RuleType :=
  match ipd, eth with
  | some _, none => .ok .ipAddress
  | none, some _ => .ok .ethAddress
  | some _, some _ => .ok .ipAndEthAddress
  | none, none => .error (.thrown ⟨.atLeastOneValueRequired,
      optionIp ++ " or ".toList ++ optionMac, []⟩)

/- The exit code for what a call on the engine returns. -/
def exitFor : Option (Bool × RuleData) → Except Failure (ExitCode × RuleData)
  | none => .error .memory
  | some (true, rd) => .ok (.exitWithNoError, rd)
  | some (false, rd) => .ok (.exitWithError, rd)

def parseAdd (vm : Values) (rd : RuleData) : Except Failure (ExitCode × RuleData) := do
  let index ← readIndex toIndex (vm optionIndex)
  let ipd ← readIpd inet optionIp locals.ipd (vm optionIp)
  let eth ← readMac locals.eth (vm optionMac)
  let ruleType ← chooseType ipd eth
  let target ← readIpd inet optionTarget locals.target (vm optionTarget)
  let action ← required optionAction vm
  let actionType ← getActionType action
  let r : Rule := {
    ruleType, actionType
    ipd := some (ipd.getD locals.ipd)
    eth := some (eth.getD locals.eth)
    target := some (target.getD locals.target)
    ipd_isSome := fun _ => rfl
    eth_isSome := fun _ => rfl
    target_isSome := fun _ => rfl }
  exitFor (if index = sizeMax then rd.appendRule r else rd.insertRule r index)

def parseDelete (vm : Values) (rd : RuleData) : Except Failure (ExitCode × RuleData) := do
  let value ← required optionIndex vm
  let index ← readIndex toIndex (some value)
  exitFor (rd.deleteRule index)

def parsePolicy (vm : Values) (rd : RuleData) : Except Failure (ExitCode × RuleData) := do
  let action ← required optionAction vm
  let actionType ← getActionType action
  let target4 ← required optionTarget4 vm
  let (_, ipaddr4) ← parseIpAddress inet target4 optionTarget4 locals.ipaddr4
  let target6 ← required optionTarget6 vm
  let (_, ipaddr6) ← parseIpAddress inet target6 optionTarget6 locals.ipaddr6
  exitFor (some (rd.setPolicy actionType ipaddr4 ipaddr6))

/- RuleParser::Parse behind the word rules. help is whether the caller's variables_map holds the
   option; then the command is described when its own options have been read, and nothing is done.
   Without a command there is nothing to do. -/
def parse (po : ProgramOptions) (help : Bool) (opts : List Token) (rd : RuleData) :
    Except Failure (ExitCode × RuleData) :=
  match po.command opts with
  | none => .error .options
  | some (none, _) => .ok (.exitWithNoError, rd)
  | some (some cmd, opts) =>
    if cmd = optionAdd then withValues (po.values addOptions opts.tail) fun vm =>
      if help then .ok (.exitWithNoError, rd) else parseAdd inet toIndex locals vm rd
    else if cmd = optionDelete then withValues (po.values deleteOptions opts.tail) fun vm =>
      if help then .ok (.exitWithNoError, rd) else parseDelete toIndex vm rd
    else if cmd = optionClear then
      if help then .ok (.exitWithNoError, rd) else exitFor (some rd.clearRules)
    else if cmd = optionList then .ok (.exitWithNoError, rd)
    else if cmd = optionPolicy then withValues (po.values policyOptions opts.tail) fun vm =>
      if help then .ok (.exitWithNoError, rd) else parsePolicy inet locals vm rd
    else if cmd = optionLoad ∨ cmd = optionSave then
      withValues (po.values fileOptions opts.tail) fun _ =>
        if help then .ok (.exitWithNoError, rd) else .error .file
    else .ok (.exitWithError, rd)

end Parse

section Load
variable (inet : Inet) (toIndex : Token → Option Nat) (locals : Nat → Locals)

/- What follows a line: an error ends the loop, an exception leaves it. -/
def afterLine (rest : RuleData → Except Failure (Bool × RuleData)) :
    Except Failure (ExitCode × RuleData) → Except Failure (Bool × RuleData)
  | .error e => .error e
  | .ok (.exitWithError, rd) => .ok (false, rd)
  | .ok (.exitWithNoError, rd) => rest rd

/- The loop of operator>> from line n on; true is that every line was parsed without error. The
   variables_map of a line never holds the help option: operator>> does not describe it. -/
def loadLines : List (List Char) → Nat → RuleData → Except Failure (Bool × RuleData)
  | [], _, rd => .ok (true, rd)
  | line :: lines, n, rd =>
    let line := uncomment '#' line
    if line = [] then loadLines lines (n + 1) rd
    else afterLine (loadLines lines (n + 1))
      (parse inet toIndex (locals n) plainOptions false (words (optionRules ++ ' ' :: line)).tail rd)

def load (text : List Char) (rd : RuleData) : Except Failure (Bool × RuleData) :=
  loadLines inet toIndex locals (getlines '\n' text) 0 rd

end Load

end DnsWrapper.Shm
