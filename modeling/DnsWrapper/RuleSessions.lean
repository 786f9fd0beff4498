import DnsWrapper.RuleDecision
import DnsWrapper.RuleFiles

/-! The commands as calls on the table. What a line asks of the engine is in its text and in the
memory of its locals; the table only decides whether the engine does it. A load asks for what its
lines ask for, as far as it reads them. -/
namespace DnsWrapper.Shm
open TextSplit Util

section Asked
variable (inet : Inet) (toIndex : Token → Option Nat) (po : ProgramOptions)

/- SIZE_MAX stands for the end. -/
def addCall (x : Nat × Rule) : Call :=
  if x.1 = sizeMax then .appendRule x.2 else .insertRule x.2 x.1

def policyCall (locals : Locals) (x : ActionType × Token × Token) : Call :=
  .setPolicy x.1 (overAddress inet locals.ipaddr4 x.2.1) (overAddress inet locals.ipaddr6 x.2.2)

def deleteCall (vm : Values) : Except Failure Call := do
  let value ← required optionIndex vm
  let index ← readIndex toIndex (some value)
  pure (.deleteRule index)

/- The call that a command makes, if it makes one; the help option is not set. -/
def askedFor (locals : Locals) (opts : List Token) : Except Failure (Option Call) :=
  match po.command opts with
  | none => .error .options
  | some (none, _) => .ok none
  | some (some cmd, rest) =>
    if cmd = optionAdd then withValues (po.values addOptions rest.tail) fun vm =>
      (addRule inet toIndex locals vm).map fun x => some (addCall x)
    else if cmd = optionDelete then withValues (po.values deleteOptions rest.tail) fun vm =>
      (deleteCall toIndex vm).map some
    else if cmd = optionClear then .ok (some .clearRules)
    else if cmd = optionList then .ok none
    else if cmd = optionPolicy then withValues (po.values policyOptions rest.tail) fun vm =>
      (readPolicy inet vm).map fun x => some (policyCall inet locals x)
    else .ok none

/- The table after a call that may not be there. -/
def Does (rd rd' : RuleData) : Option Call → Prop
  | none => rd' = rd
  | some c => ∃ o, rd.exec c = some (rd', o)

variable {inet toIndex po} {locals : Locals} {rd rd' : RuleData} {code : ExitCode}

theorem exitFor_ok {x : Option (Bool × RuleData)} (h : exitFor x = .ok (code, rd')) :
    ∃ o, x = some (o, rd') := by
  match x with
  | none => cases h
  | some (true, rd) =>
    cases h
    exact ⟨true, rfl⟩
  | some (false, rd) =>
    cases h
    exact ⟨false, rfl⟩

theorem parseAdd_does {vm : Values} (h : parseAdd inet toIndex locals vm rd = .ok (code, rd')) :
    ∃ x, addRule inet toIndex locals vm = .ok x ∧ Does rd rd' (some (addCall x)) := by
  rw [parseAdd_eq] at h
  obtain ⟨x, hx, h⟩ := of_bind_ok h
  obtain ⟨o, hexec⟩ := exitFor_ok h
  refine ⟨x, hx, o, ?_⟩
  rw [addCall, place] at *
  split_ifs at * with hend
  · rw [RuleData.exec, RuleData.appendRule, hexec]
    rfl
  · rw [RuleData.exec, hexec]
    rfl

theorem parseDelete_does {vm : Values} (h : parseDelete toIndex vm rd = .ok (code, rd')) :
    ∃ c, deleteCall toIndex vm = .ok c ∧ Does rd rd' (some c) := by
  obtain ⟨value, hvalue, h⟩ := of_bind_ok h
  obtain ⟨index, hindex, h⟩ := of_bind_ok h
  obtain ⟨o, hexec⟩ := exitFor_ok h
  refine ⟨.deleteRule index, ?_, o, ?_⟩
  · simp only [deleteCall, hvalue, hindex, bind, Except.bind]
    rfl
  · rw [RuleData.exec, hexec]
    rfl

theorem parsePolicy_does {vm : Values} (h : parsePolicy inet locals vm rd = .ok (code, rd')) :
    ∃ x, readPolicy inet vm = .ok x ∧ Does rd rd' (some (policyCall inet locals x)) := by
  rw [parsePolicy_eq] at h
  cases hread : readPolicy inet vm with
  | error e =>
    rw [hread] at h
    cases h
  | ok x =>
    rw [hread] at h
    cases h
    exact ⟨x, rfl, true, rfl⟩

/-- A command that does not touch the files does the call that it asks for, or nothing. -/
theorem parse_does {opts : List Token}
    (h : parse inet toIndex locals po false opts rd = .ok (code, rd')) :
    ∃ c, askedFor inet toIndex po locals opts = .ok c ∧ Does rd rd' c := by
  match hcommand : po.command opts with
  | none =>
    rw [parse, hcommand] at h
    cases h
  | some (none, rest) =>
    rw [parse, hcommand] at h
    cases h
    exact ⟨none, by rw [askedFor, hcommand], rfl⟩
  | some (some cmd, rest) =>
    rw [parse_some hcommand] at h
    simp only [askedFor, hcommand]
    split_ifs at h ⊢ with hadd hdelete hclear hlist hpolicy hfile
    · obtain ⟨vm, hvm, h⟩ := withValues_ok_iff.mp h
      obtain ⟨x, hx, hdoes⟩ := parseAdd_does h
      exact ⟨_, by rw [hvm, withValues, hx]; rfl, hdoes⟩
    · obtain ⟨vm, hvm, h⟩ := withValues_ok_iff.mp h
      obtain ⟨c, hc, hdoes⟩ := parseDelete_does h
      exact ⟨_, by rw [hvm, withValues, hc]; rfl, hdoes⟩
    · obtain ⟨o, hexec⟩ := exitFor_ok h
      cases hexec
      exact ⟨_, rfl, true, rfl⟩
    · cases h
      exact ⟨none, rfl, rfl⟩
    · obtain ⟨vm, hvm, h⟩ := withValues_ok_iff.mp h
      obtain ⟨x, hx, hdoes⟩ := parsePolicy_does h
      exact ⟨_, by rw [hvm, withValues, hx]; rfl, hdoes⟩
    · obtain ⟨vm, _, h⟩ := withValues_ok_iff.mp h
      cases h
    · cases h
      exact ⟨none, rfl, rfl⟩

/- When help is asked for, the table stays. -/
theorem parse_help {opts : List Token}
    (h : parse inet toIndex locals po true opts rd = .ok (code, rd')) : rd' = rd := by
  match hcommand : po.command opts with
  | none =>
    rw [parse, hcommand] at h
    cases h
  | some (none, rest) =>
    rw [parse, hcommand] at h
    cases h
    rfl
  | some (some cmd, rest) =>
    have hvalues : ∀ {x : Option Values},
        withValues x (fun _ => .ok (.exitWithNoError, rd)) = .ok (code, rd') → rd' = rd := by
      intro x hx
      obtain ⟨_, _, hx⟩ := withValues_ok_iff.mp hx
      cases hx
      rfl
    simp only [parse, hcommand, if_true] at h
    split_ifs at h
    · exact hvalues h
    · exact hvalues h
    · cases h
      rfl
    · cases h
      rfl
    · exact hvalues h
    · exact hvalues h
    · cases h
      rfl

end Asked

section Sessions
variable (inet : Inet) (toIndex : Token → Option Nat) (po : ProgramOptions)
  (canWrite : Token → Bool) (locals : List Nat → Locals) (streams : Streams)

/- The file that load reads, and its text; nothing for another command. -/
def opened (help : Bool) (opts : List Token) (w : World) : Option (Token × List Char) :=
  match po.command opts with
  | some (some cmd, rest) =>
    if cmd = optionLoad ∧ help = false then
      (fileName po rest.tail).toOption.bind fun file => (w.files file).map fun text => (file, text)
    else none
  | _ => none

/- The call of one command; a load that opens nothing makes none. -/
def ownCall (path : List Nat) (help : Bool) (opts : List Token) : List Call :=
  if help then [] else ((askedFor inet toIndex po (locals path) opts).toOption.bind id).toList

/- The calls of the lines of a stream, up to one that is refused. -/
def lineCalls (next : Nat → World → Option (List Char))
    (calls : Nat → List Char → World → List Call)
    (parse : Nat → List Char → World → Except Stop (ExitCode × World)) :
    Nat → Nat → World → List Call
  | 0, _, _ => []
  | k + 1, n, w =>
    match next n w with
    | none => []
    | some line =>
      if uncomment '#' line = [] then lineCalls next calls parse k (n + 1) w
      else calls n (uncomment '#' line) w ++
        match parse n (uncomment '#' line) w with
        | .ok (.exitWithNoError, w) => lineCalls next calls parse k (n + 1) w
        | _ => []

/- Those of a file. -/
def streamCalls (calls : Nat → List Char → World → List Call)
    (parse : Nat → List Char → World → Except Stop (ExitCode × World)) (file : Token)
    (text : List Char) (w : World) : List Call :=
  lineCalls (fun n w => streams.getline file text w n) calls parse streams.turns 0 w

/- All calls that a command makes on the table, one after the other. -/
def callsIn : Nat → List Nat → Bool → List Token → World → List Call
  | 0, path, help, opts, _ => ownCall inet toIndex po locals path help opts
  | depth + 1, path, help, opts, w =>
    match opened po help opts w with
    | none => ownCall inet toIndex po locals path help opts
    | some (file, text) => streamCalls streams
        (fun n line w => ((po.line (optionRules ++ ' ' :: line)).map fun tokens =>
          callsIn depth (n :: path) false tokens.tail w).getD [])
        (parseInner inet toIndex po canWrite locals streams depth path) file text w

/- The calls of line n of a file. -/
def innerCalls (depth : Nat) (path : List Nat) (n : Nat) (line : List Char) (w : World) :
    List Call :=
  ((po.line (optionRules ++ ' ' :: line)).map fun tokens =>
    callsIn inet toIndex po canWrite locals streams depth (n :: path) false tokens.tail w).getD []

end Sessions

section Runs
variable {inet : Inet} {toIndex : Token → Option Nat} {po : ProgramOptions}
  {canWrite : Token → Bool} {locals : List Nat → Locals} {streams : Streams} {w w' : World}
  {code : ExitCode}

/- The calls take the one table to the other. -/
def Reach (rd rd' : RuleData) (calls : List Call) : Prop :=
  ∃ outs, Runs.run RuleData.exec rd calls = some (rd', outs)

theorem reach_nil (rd : RuleData) : Reach rd rd [] := ⟨[], rfl⟩

theorem Reach.append {rd rd₁ rd₂ : RuleData} {cs ds : List Call} (h : Reach rd rd₁ cs)
    (h' : Reach rd₁ rd₂ ds) : Reach rd rd₂ (cs ++ ds) := by
  obtain ⟨outs, hrun⟩ := h
  obtain ⟨outs', hrun'⟩ := h'
  exact ⟨outs ++ outs', Runs.run_append hrun hrun'⟩

theorem Does.reach {rd rd' : RuleData} {c : Option Call} (h : Does rd rd' c) :
    Reach rd rd' c.toList := by
  cases c with
  | none =>
    cases h
    exact reach_nil rd
  | some c =>
    obtain ⟨o, hexec⟩ := h
    exact ⟨[o], Runs.run_of_step hexec rfl⟩

theorem readStream_reach {next : Nat → World → Option (List Char)}
    {calls : Nat → List Char → World → List Call}
    {parse : Nat → List Char → World → Except Stop (ExitCode × World)}
    (hparse : ∀ n line w code w', parse n line w = .ok (code, w') →
      Reach w.rd w'.rd (calls n line w))
    {k n : Nat} {b : Bool} (h : readStream next parse .endless k n w = .ok (b, w')) :
    Reach w.rd w'.rd (lineCalls next calls parse k n w) := by
  induction k generalizing n w with
  | zero => cases h
  | succ k ih =>
    rw [readStream] at h
    rw [lineCalls]
    cases hnext : next n w with
    | none =>
      rw [hnext] at h
      cases h
      exact reach_nil _
    | some line =>
      simp only [hnext] at h ⊢
      split_ifs at h ⊢ with hblank
      · exact ih h
      · cases hline : parse n (uncomment '#' line) w with
        | error e =>
          rw [hline] at h
          cases h
        | ok x =>
          obtain ⟨code, w₁⟩ := x
          rw [hline] at h
          have hfirst := hparse n _ w code w₁ hline
          cases code with
          | exitWithError =>
            cases h
            exact hfirst.append (reach_nil _)
          | exitWithNoError => exact hfirst.append (ih h)

theorem onTable_reach {help : Bool} {opts : List Token} {path : List Nat}
    (h : onTable w (parse inet toIndex (locals path) po help opts w.rd) = .ok (code, w')) :
    Reach w.rd w'.rd (ownCall inet toIndex po locals path help opts) := by
  match hparse : parse inet toIndex (locals path) po help opts w.rd with
  | .error f =>
    rw [hparse] at h
    cases h
  | .ok (code₁, rd) =>
    rw [hparse] at h
    cases h
    cases help with
    | true =>
      cases parse_help hparse
      exact reach_nil _
    | false =>
      obtain ⟨c, hasked, hdoes⟩ := parse_does hparse
      simp only [ownCall, Bool.false_eq_true, if_false, hasked]
      exact hdoes.reach

variable {read : Token → List Char → World → Except Stop (Bool × World)} {path : List Nat}
  {help : Bool} {opts : List Token}

theorem ownCall_file {cmd : Token} {rest : List Token}
    (hcommand : po.command opts = some (some cmd, rest))
    (hfile : cmd = optionLoad ∨ cmd = optionSave) :
    ownCall inet toIndex po locals path false opts = [] := by
  obtain rfl | rfl := hfile <;> simp only [ownCall, askedFor, hcommand] <;> rfl

theorem saveFile_rd {file : Token} (h : saveFile inet canWrite file w = .ok (code, w')) :
    w'.rd = w.rd := by
  rw [saveFile] at h
  split_ifs at h
  · cases hsave : save inet w.rd with
    | none =>
      rw [hsave] at h
      cases h
    | some text =>
      rw [hsave] at h
      cases h
      rfl
  · cases h
    rfl

/- A command that opens no file to read. -/
theorem parseWith_unopened (hnone : opened po help opts w = none)
    (h : parseWith inet toIndex po canWrite locals read path help opts w = .ok (code, w')) :
    Reach w.rd w'.rd (ownCall inet toIndex po locals path help opts) := by
  match hcommand : po.command opts with
  | none =>
    rw [parseWith, hcommand] at h
    exact onTable_reach h
  | some (none, rest) =>
    rw [parseWith, hcommand] at h
    exact onTable_reach h
  | some (some cmd, rest) =>
    cases help with
    | true =>
      simp only [parseWith, hcommand, Bool.true_eq_false, and_false, if_false] at h
      exact onTable_reach h
    | false =>
      by_cases hload : cmd = optionLoad
      · subst hload
        rw [ownCall_file hcommand (.inl rfl)]
        rw [parseWith_load hcommand] at h
        simp only [opened, hcommand, and_self, if_true] at hnone
        cases hfile : fileName po rest.tail with
        | error f =>
          rw [hfile] at h
          cases h
        | ok file =>
          rw [hfile] at h hnone
          have hclosed : w.files file = none := Option.map_eq_none_iff.mp hnone
          simp only [loadFile, hclosed] at h
          cases h
          exact reach_nil _
      by_cases hsave : cmd = optionSave
      · subst hsave
        rw [ownCall_file hcommand (.inr rfl)]
        rw [parseWith_save hcommand] at h
        cases hfile : fileName po rest.tail with
        | error f =>
          rw [hfile] at h
          cases h
        | ok file =>
          rw [hfile] at h
          rw [saveFile_rd h]
          exact reach_nil _
      · simp only [parseWith, hcommand, hload, hsave, or_self, false_and, if_false] at h
        exact onTable_reach h

theorem parseWith_opened {file : Token} {text : List Char}
    (hopened : opened po help opts w = some (file, text))
    (h : parseWith inet toIndex po canWrite locals read path help opts w = .ok (code, w')) :
    ∃ b, read file text w = .ok (b, w') := by
  match hcommand : po.command opts with
  | none =>
    rw [opened, hcommand] at hopened
    cases hopened
  | some (none, rest) =>
    rw [opened, hcommand] at hopened
    cases hopened
  | some (some cmd, rest) =>
    simp only [opened, hcommand] at hopened
    split_ifs at hopened with hload
    obtain ⟨rfl, rfl⟩ := hload
    rw [parseWith_load hcommand] at h
    cases hfile : fileName po rest.tail with
    | error f =>
      rw [hfile] at h
      cases h
    | ok named =>
      rw [hfile] at h hopened
      obtain ⟨held, htext, heq⟩ := Option.map_eq_some_iff.mp hopened
      cases heq
      simp only [loadFile, htext] at h
      cases hread : read file text w with
      | error e =>
        rw [hread] at h
        cases h
      | ok x =>
        rw [hread] at h
        cases h
        exact ⟨x.1, rfl⟩

theorem parseInner_reach {depth n : Nat} {line : List Char}
    (hparse : ∀ path opts w code w',
      parseIn inet toIndex po canWrite locals streams depth path false opts w = .ok (code, w') →
      Reach w.rd w'.rd (callsIn inet toIndex po canWrite locals streams depth path false opts w))
    (h : parseInner inet toIndex po canWrite locals streams depth path n line w = .ok (code, w')) :
    Reach w.rd w'.rd (innerCalls inet toIndex po canWrite locals streams depth path n line w) := by
  simp only [parseInner, parseLine] at h
  rw [innerCalls]
  cases htokens : po.line (optionRules ++ ' ' :: line) with
  | none =>
    rw [htokens] at h
    cases h
  | some tokens =>
    rw [htokens] at h
    exact hparse _ _ _ _ _ h

theorem parseIn_reach {depth : Nat} {path : List Nat} {help : Bool} {opts : List Token}
    {w w' : World} {code : ExitCode}
    (h : parseIn inet toIndex po canWrite locals streams depth path help opts w = .ok (code, w')) :
    Reach w.rd w'.rd (callsIn inet toIndex po canWrite locals streams depth path help opts w) := by
  induction depth generalizing path help opts w code w' with
  | zero =>
    rw [parseIn] at h
    rw [callsIn]
    cases hopened : opened po help opts w with
    | none => exact parseWith_unopened hopened h
    | some x =>
      obtain ⟨b, hread⟩ := parseWith_opened hopened h
      cases hread
  | succ depth ih =>
    rw [parseIn_succ] at h
    rw [callsIn]
    cases hopened : opened po help opts w with
    | none => exact parseWith_unopened hopened h
    | some x =>
      obtain ⟨b, hread⟩ := parseWith_opened hopened h
      exact readStream_reach (fun n line w code w' hline =>
        parseInner_reach (fun path opts w code w' => ih) hline) hread

end Runs

/- A command line, whether it asks for help, the memory of the locals for it and for the lines of
   the files that it reads, and the files that it can write. -/
structure Command where
  help : Bool
  opts : List Token
  locals : List Nat → Locals
  canWrite : Token → Bool

section Sessions
variable (inet : Inet) (toIndex : Token → Option Nat) (po : ProgramOptions) (streams : Streams)
  (depth : Nat)

/- A command that returns. -/
def Command.exec (w : World) (c : Command) : Option (World × ExitCode) :=
  (parseIn inet toIndex po c.canWrite c.locals streams depth [] c.help c.opts w).toOption.map
    Prod.swap

def Command.calls (c : Command) (w : World) : List Call :=
  callsIn inet toIndex po c.canWrite c.locals streams depth [] c.help c.opts w

def sessionCalls : List Command → World → List Call
  | [], _ => []
  | c :: cs, w => c.calls inet toIndex po streams depth w ++
    match c.exec inet toIndex po streams depth w with
    | none => []
    | some (w, _) => sessionCalls cs w

variable {inet toIndex po streams depth}

theorem exec_reach {w w' : World} {c : Command} {code : ExitCode}
    (h : c.exec inet toIndex po streams depth w = some (w', code)) :
    Reach w.rd w'.rd (c.calls inet toIndex po streams depth w) := by
  obtain ⟨x, hx, heq⟩ := Option.map_eq_some_iff.mp h
  cases hparse : parseIn inet toIndex po c.canWrite c.locals streams depth [] c.help c.opts w with
  | error e =>
    rw [hparse] at hx
    cases hx
  | ok y =>
    rw [hparse] at hx
    cases hx
    cases heq
    exact parseIn_reach hparse

theorem session_reach {w w' : World} {cs : List Command} {codes : List ExitCode}
    (h : Runs.run (fun w c => c.exec inet toIndex po streams depth w) w cs = some (w', codes)) :
    Reach w.rd w'.rd (sessionCalls inet toIndex po streams depth cs w) := by
  induction cs generalizing w codes with
  | nil =>
    cases h
    exact reach_nil _
  | cons c cs ih =>
    obtain ⟨w₁, code, codes', hexec, hrest, rfl⟩ := Runs.run_cons h
    rw [sessionCalls, hexec]
    exact (exec_reach hexec).append (ih hrest)

/-- In every session of commands that return, with files that load other files, and whatever the
streams of the files give, the table goes through the calls that the lines ask for and through
nothing else. If those that insert append or are rejected, it stores the rules that the calls leave
of a plain list, and this list decides every request from then on. -/
theorem session_decides (cs : List Command) (w w' : World) (codes : List ExitCode)
    (h : Runs.run (fun w c => c.exec inet toIndex po streams depth w) w cs = some (w', codes)) :
    let calls := sessionCalls inet toIndex po streams depth cs w
    (∃ outs, Runs.run RuleData.exec w.rd calls = some (w'.rd, outs)) ∧
      ∀ l, Represents w.rd l → Runs.Admits RuleData.exec AppendsOrRejected w.rd calls →
        Represents w'.rd (calls.foldl RuleList.after l) ∧
        ∀ input, w'.rd.evaluate input =
          some (true, [(calls.foldl RuleList.after l).actionFor input]) := by
  intro calls
  obtain ⟨outs, hrun⟩ := session_reach h
  refine ⟨⟨outs, hrun⟩, fun l hl hok => ?_⟩
  obtain ⟨rd, outs', hrun', hrep⟩ := Runs.run_simulates (fun _ _ c h hc => h.after hc) hl hok
  cases hrun.symm.trans hrun'
  exact ⟨hrep, fun input => evaluate_choose hrep input⟩

end Sessions

/- A file that clears the rules, beside a table. -/
def clearedBy (rd : RuleData) : World := ⟨(oneFile "clear").files, rd⟩

def loadCommand : Command := ⟨false, loadRules, fun _ => filled 0, fun _ => true⟩

theorem clearedBy_runs (rd : RuleData) :
    Runs.run (fun w c => c.exec posixInet (fun _ => none) plainOptions (.buffered 2) 1 w)
        (clearedBy rd) [loadCommand] = some (clearedBy rd.clearRules.2, [.exitWithNoError]) ∧
      sessionCalls posixInet (fun _ => none) plainOptions (.buffered 2) 1 [loadCommand]
        (clearedBy rd) = [.clearRules] := ⟨rfl, rfl⟩

theorem session_decides_loadCommand :
    ∃ w' codes, Runs.run (fun w c => c.exec posixInet (fun _ => none) plainOptions (.buffered 2) 1 w)
        (clearedBy RuleData.zeroed) [loadCommand] = some (w', codes) ∧
      Represents w'.rd RuleList.zeroed := by
  obtain ⟨hrun, hcalls⟩ := clearedBy_runs RuleData.zeroed
  obtain ⟨_, hdecides⟩ := session_decides [loadCommand] (clearedBy RuleData.zeroed) _ _ hrun
  rw [hcalls] at hdecides
  refine ⟨_, _, hrun, (hdecides RuleList.zeroed zeroed_represents ?_).1⟩
  exact ⟨fun _ _ h => (by cases h), fun _ _ _ => trivial⟩

end DnsWrapper.Shm
