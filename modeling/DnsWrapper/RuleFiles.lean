import DnsWrapper.RuleArguments

/-! The commands load and save with the files they open, also from a line of a file. The input
operator ends at the first line that is refused, and load does not ask it how it ended. -/
namespace DnsWrapper.Shm
open TextSplit Util

section Lines
variable {σ ε : Type}

/- The loop of operator>> over given lines, numbered from n on; parse takes the number of the line
   and what is left of it without the comment. -/
def readLines (parse : Nat → List Char → σ → Except ε (ExitCode × σ)) :
    List (List Char) → Nat → σ → Except ε (Bool × σ)
  | [], _, s => .ok (true, s)
  | line :: lines, n, s =>
    if uncomment '#' line = [] then readLines parse lines (n + 1) s
    else
      match parse n (uncomment '#' line) s with
      | .error e => .error e
      | .ok (.exitWithError, s) => .ok (false, s)
      | .ok (.exitWithNoError, s) => readLines parse lines (n + 1) s

/- The same loop over a stream, next being getline for the line of that number; after so many lines
   it is given up. -/
def readStream (next : Nat → σ → Option (List Char))
    (parse : Nat → List Char → σ → Except ε (ExitCode × σ)) (endless : ε) :
    Nat → Nat → σ → Except ε (Bool × σ)
  | 0, _, _ => .error endless
  | k + 1, n, s =>
    match next n s with
    | none => .ok (true, s)
    | some line =>
      if uncomment '#' line = [] then readStream next parse endless k (n + 1) s
      else
        match parse n (uncomment '#' line) s with
        | .error e => .error e
        | .ok (.exitWithError, s) => .ok (false, s)
        | .ok (.exitWithNoError, s) => readStream next parse endless k (n + 1) s

/- Every line that holds something besides a comment is parsed and applied, one after the
   other. -/
def Applied (parse : Nat → List Char → σ → Except ε (ExitCode × σ)) :
    List (List Char) → Nat → σ → σ → Prop
  | [], _, s, s' => s = s'
  | line :: lines, n, s, s' =>
    if uncomment '#' line = [] then Applied parse lines (n + 1) s s'
    else ∃ s₁, parse n (uncomment '#' line) s = .ok (.exitWithNoError, s₁) ∧
      Applied parse lines (n + 1) s₁ s'

/- The lines up to one for which Parse returns an error are applied. -/
def StopsAt (parse : Nat → List Char → σ → Except ε (ExitCode × σ)) (lines : List (List Char))
    (n : Nat) (s s' : σ) : Prop :=
  ∃ pre line post s₁, lines = pre ++ line :: post ∧ Applied parse pre n s s₁ ∧
    uncomment '#' line ≠ [] ∧
    parse (n + pre.length) (uncomment '#' line) s₁ = .ok (.exitWithError, s')

variable {parse : Nat → List Char → σ → Except ε (ExitCode × σ)} {lines : List (List Char)}
  {n : Nat} {s s' : σ}

theorem readLines_true_iff :
    readLines parse lines n s = .ok (true, s') ↔ Applied parse lines n s s' := by
  induction lines generalizing n s with
  | nil => simp [readLines, Applied]
  | cons line lines ih =>
    rw [readLines, Applied]
    split_ifs with hblank
    · exact ih
    · cases hparse : parse n (uncomment '#' line) s with
      | error e => simp
      | ok x =>
        obtain ⟨code, s₁⟩ := x
        cases code with
        | exitWithError => simp
        | exitWithNoError => simpa using ih

theorem Applied.unique {s₁ s₂ : σ} (h₁ : Applied parse lines n s s₁)
    (h₂ : Applied parse lines n s s₂) : s₁ = s₂ := by
  have h := (readLines_true_iff.mpr h₁).symm.trans (readLines_true_iff.mpr h₂)
  cases h
  rfl

theorem applied_append {pre post : List (List Char)} :
    Applied parse (pre ++ post) n s s' ↔
      ∃ s₁, Applied parse pre n s s₁ ∧ Applied parse post (n + pre.length) s₁ s' := by
  induction pre generalizing n s with
  | nil => simp [Applied]
  | cons line pre ih =>
    rw [List.cons_append, Applied, List.length_cons, ← Nat.add_assoc, Nat.add_right_comm]
    simp only [Applied]
    split_ifs
    · exact ih
    · constructor
      · rintro ⟨s₂, hline, happlied⟩
        obtain ⟨s₁, hpre, hpost⟩ := ih.mp happlied
        exact ⟨s₁, ⟨s₂, hline, hpre⟩, hpost⟩
      · rintro ⟨s₁, ⟨s₂, hline, hpre⟩, hpost⟩
        exact ⟨s₂, hline, ih.mpr ⟨s₁, hpre, hpost⟩⟩

theorem stopsAt_blank {line : List Char} (hblank : uncomment '#' line = []) :
    StopsAt parse (line :: lines) n s s' ↔ StopsAt parse lines (n + 1) s s' := by
  constructor
  · rintro ⟨pre, last, post, s₁, hlines, happlied, hne, hparse⟩
    cases pre with
    | nil =>
      cases hlines
      exact absurd hblank hne
    | cons first pre =>
      cases hlines
      rw [Applied, if_pos hblank] at happlied
      rw [List.length_cons, ← Nat.add_assoc, Nat.add_right_comm] at hparse
      exact ⟨pre, last, post, s₁, rfl, happlied, hne, hparse⟩
  · rintro ⟨pre, last, post, s₁, rfl, happlied, hne, hparse⟩
    refine ⟨line :: pre, last, post, s₁, rfl, ?_, hne, ?_⟩
    · rw [Applied, if_pos hblank]
      exact happlied
    · rw [List.length_cons, ← Nat.add_assoc, Nat.add_right_comm]
      exact hparse

theorem stopsAt_command {line : List Char} (hline : uncomment '#' line ≠ []) :
    StopsAt parse (line :: lines) n s s' ↔
      parse n (uncomment '#' line) s = .ok (.exitWithError, s') ∨
      ∃ s₁, parse n (uncomment '#' line) s = .ok (.exitWithNoError, s₁) ∧
        StopsAt parse lines (n + 1) s₁ s' := by
  constructor
  · rintro ⟨pre, last, post, s₁, hlines, happlied, hne, hparse⟩
    cases pre with
    | nil =>
      cases hlines
      cases happlied
      exact .inl hparse
    | cons first pre =>
      cases hlines
      rw [Applied, if_neg hline] at happlied
      obtain ⟨s₂, hfirst, happlied⟩ := happlied
      rw [List.length_cons, ← Nat.add_assoc, Nat.add_right_comm] at hparse
      exact .inr ⟨s₂, hfirst, pre, last, post, s₁, rfl, happlied, hne, hparse⟩
  · rintro (hparse | ⟨s₂, hfirst, pre, last, post, s₁, rfl, happlied, hne, hparse⟩)
    · exact ⟨[], line, lines, s, rfl, rfl, hline, hparse⟩
    · refine ⟨line :: pre, last, post, s₁, rfl, ?_, hne, ?_⟩
      · rw [Applied, if_neg hline]
        exact ⟨s₂, hfirst, happlied⟩
      · rw [List.length_cons, ← Nat.add_assoc, Nat.add_right_comm]
        exact hparse

theorem readLines_false_iff :
    readLines parse lines n s = .ok (false, s') ↔ StopsAt parse lines n s s' := by
  induction lines generalizing n s with
  | nil => simp [readLines, StopsAt]
  | cons line lines ih =>
    rw [readLines]
    split_ifs with hblank
    · rw [ih, stopsAt_blank hblank]
    · rw [stopsAt_command hblank]
      cases hparse : parse n (uncomment '#' line) s with
      | error e => simp
      | ok x =>
        obtain ⟨code, s₁⟩ := x
        cases code with
        | exitWithError => simp
        | exitWithNoError => simpa using ih

/-- A stream that gives these lines, as long as the loop goes on, is read as they are. -/
theorem readStream_eq {next : Nat → σ → Option (List Char)} {endless : ε} {k : Nat}
    (hnext : ∀ pre post s₁, lines = pre ++ post → Applied parse pre n s s₁ →
      next (n + pre.length) s₁ = post.head?) (hk : lines.length < k) :
    readStream next parse endless k n s = readLines parse lines n s := by
  induction lines generalizing n s k with
  | nil =>
    cases k with
    | zero => cases hk
    | succ k =>
      have hend : next n s = none := hnext [] [] s rfl rfl
      rw [readStream, hend]
      rfl
  | cons line lines ih =>
    cases k with
    | zero => cases hk
    | succ k =>
      have hline : next n s = some line := hnext [] (line :: lines) s rfl rfl
      have hrest : ∀ s₂, (∀ pre s₁, Applied parse pre (n + 1) s₂ s₁ →
            Applied parse (line :: pre) n s s₁) →
          readStream next parse endless k (n + 1) s₂ = readLines parse lines (n + 1) s₂ := by
        intro s₂ happlied
        refine ih (fun pre post s₁ hsplit hpre => ?_) (Nat.lt_of_succ_lt_succ hk)
        rw [Nat.add_assoc, Nat.add_comm 1, ← List.length_cons]
        exact hnext (line :: pre) post s₁ (by rw [hsplit, List.cons_append]) (happlied pre s₁ hpre)
      rw [readStream, hline, readLines]
      simp only
      split_ifs with hblank
      · refine hrest s fun pre s₁ hpre => ?_
        rw [Applied, if_pos hblank]
        exact hpre
      · cases hparse : parse n (uncomment '#' line) s with
        | error e => rfl
        | ok x =>
          obtain ⟨code, s₂⟩ := x
          cases code with
          | exitWithError => rfl
          | exitWithNoError =>
            refine hrest s₂ fun pre s₁ hpre => ?_
            rw [Applied, if_neg hblank]
            exact ⟨s₂, hparse, hpre⟩

end Lines

/- The loop over the lines that save writes is this loop. -/
theorem loadLines_eq (inet : Inet) (toIndex : Token → Option Nat) (locals : Nat → Locals)
    (lines : List (List Char)) (n : Nat) (rd : RuleData) :
    loadLines inet toIndex locals lines n rd =
      readLines (fun n line => parse inet toIndex (locals n) plainOptions false
        (words (optionRules ++ ' ' :: line)).tail) lines n rd := by
  induction lines generalizing n rd with
  | nil => rfl
  | cons line lines ih =>
    rw [loadLines, readLines]
    split_ifs
    · exact ih _ _
    · cases parse inet toIndex (locals n) plainOptions false
          (words (optionRules ++ ' ' :: uncomment '#' line)).tail rd with
      | error e => rfl
      | ok x =>
        obtain ⟨code, rd'⟩ := x
        cases code with
        | exitWithError => rfl
        | exitWithNoError => exact ih _ _

/- The texts of the files that can be opened for reading, and the table. -/
structure World where
  files : Token → Option (List Char)
  rd : RuleData

/- How a command can fail to return, with files: also by files that load each other too deep, or
   a stream that does not end. -/
inductive Stop where
  | failure (f : Failure)
  | nested
  | endless

/-- What is used of std::fstream: getline for the stream of a file, which held a text when it was
opened, in a world that may have changed since, for the line of a number. A line can save to the
file that is read; whether its stream gives the old text or the new one depends on how much of it
is in the buffer of the stream. So many turns of a loop are followed. -/
structure Streams where
  getline : Token → List Char → World → Nat → Option (List Char)
  turns : Nat

/- Streams that have all of a file in their buffers when it is opened. -/
def Streams.buffered (turns : Nat) : Streams := ⟨fun _ text _ n => (getlines '\n' text)[n]?, turns⟩

section Files
variable (inet : Inet) (toIndex : Token → Option Nat) (po : ProgramOptions)
  (canWrite : Token → Bool) (locals : List Nat → Locals) (streams : Streams)

/- A command that does not touch the files. -/
def onTable (w : World) : Except Failure (ExitCode × RuleData) → Except Stop (ExitCode × World)
  | .error f => .error (.failure f)
  | .ok (code, rd) => .ok (code, { w with rd })

def saveFile (fileName : Token) (w : World) : Except Stop (ExitCode × World) :=
  if canWrite fileName then
    match save inet w.rd with
    | none => .error (.failure .memory)
    | some text => .ok (.exitWithNoError,
        { w with files := fun f => if f = fileName then some text else w.files f })
  else .ok (.exitWithError, w)

def loadFile (read : Token → List Char → World → Except Stop (Bool × World)) (fileName : Token)
    (w : World) : Except Stop (ExitCode × World) :=
  match w.files fileName with
  | none => .ok (.exitWithError, w)
  | some text => (read fileName text w).map fun (_, w) => (.exitWithNoError, w)

/- The file that the options of load and save name. -/
def fileName (opts : List Token) : Except Failure Token :=
  withValues (po.values fileOptions opts) (required optionFile)

/- RuleParser::Parse with its last two commands, which open no file when help is asked for; the path
   is that of the line that is parsed, from the innermost file on. -/
def parseWith (read : Token → List Char → World → Except Stop (Bool × World)) (path : List Nat)
    (help : Bool) (opts : List Token) (w : World) : Except Stop (ExitCode × World) :=
  match po.command opts with
  | some (some cmd, rest) =>
    if (cmd = optionLoad ∨ cmd = optionSave) ∧ help = false then
      match fileName po rest.tail with
      | .error f => .error (.failure f)
      | .ok file =>
        if cmd = optionSave then saveFile inet canWrite file w else loadFile read file w
    else onTable w (parse inet toIndex (locals path) po help opts w.rd)
  | _ => onTable w (parse inet toIndex (locals path) po help opts w.rd)

/- A line, behind the word rules. -/
def parseLine (parse : List Token → World → Except Stop (ExitCode × World)) (line : List Char)
    (w : World) : Except Stop (ExitCode × World) :=
  match po.line (optionRules ++ ' ' :: line) with
  | none => .error (.failure .options)
  | some tokens => parse tokens.tail w

/- operator>> on the stream of a file. -/
def readFile (parse : Nat → List Char → World → Except Stop (ExitCode × World)) (fileName : Token)
    (text : List Char) (w : World) : Except Stop (Bool × World) :=
  readStream (fun n w => streams.getline fileName text w n) parse .endless streams.turns 0 w

/- With at most depth files open at once; for a line of a file the help option is never set. -/
def parseIn : Nat → List Nat → Bool → List Token → World → Except Stop (ExitCode × World)
  | 0, path => parseWith inet toIndex po canWrite locals (fun _ _ _ => .error .nested) path
  | depth + 1, path => parseWith inet toIndex po canWrite locals
      (readFile streams fun n => parseLine po (parseIn depth (n :: path) false)) path

/-- The ways in which Parse returns an error: the engine has no place for a rule or no rule to
delete, a file cannot be opened, the command is none that there is. -/
inductive Refuses (w : World) (opts : List Token) : Prop
  | rule {rest : List Token} {vm : Values} {args : AddArgs} :
    po.command opts = some (some optionAdd, rest) → po.values addOptions rest.tail = some vm →
    readArgs inet toIndex vm = .ok args →
    w.rd.room (encodedBytes args.ruleType args.actionType) (place w.rd args.index) = some false →
    Refuses w opts
  | index {rest : List Token} {vm : Values} {value : Token} {i : Nat} :
    po.command opts = some (some optionDelete, rest) →
    po.values deleteOptions rest.tail = some vm → vm optionIndex = some value →
    toIndex value = some i → w.rd.size ≤ i → Refuses w opts
  | unreadable {rest : List Token} {file : Token} :
    po.command opts = some (some optionLoad, rest) → fileName po rest.tail = .ok file →
    w.files file = none → Refuses w opts
  | unwritable {rest : List Token} {file : Token} :
    po.command opts = some (some optionSave, rest) → fileName po rest.tail = .ok file →
    canWrite file = false → Refuses w opts
  | unsupported {cmd : Token} {rest : List Token} : po.command opts = some (some cmd, rest) →
    cmd ∉ [optionAdd, optionDelete, optionClear, optionList, optionPolicy, optionLoad,
      optionSave] → Refuses w opts

end Files

section Refusal
variable {inet : Inet} {toIndex : Token → Option Nat} {po : ProgramOptions}
  {canWrite : Token → Bool}

theorem exitFor_error_iff {x : Option (Bool × RuleData)} {rd' : RuleData} :
    exitFor x = .ok (.exitWithError, rd') ↔ x = some (false, rd') := by
  match x with
  | none => simp [exitFor]
  | some (true, rd) => simp [exitFor]
  | some (false, rd) => simp [exitFor]

theorem withValues_ok_iff {α : Type} {x : Option Values} {f : Values → Except Failure α} {a : α} :
    withValues x f = .ok a ↔ ∃ vm, x = some vm ∧ f vm = .ok a := by
  cases x <;> simp [withValues]

theorem parseAdd_error_iff {locals : Locals} {vm : Values} {rd rd' : RuleData} :
    parseAdd inet toIndex locals vm rd = .ok (.exitWithError, rd') ↔
      ∃ args, readArgs inet toIndex vm = .ok args ∧
        rd.room (encodedBytes args.ruleType args.actionType) (place rd args.index) = some false ∧
        rd' = rd := by
  rw [parseAdd_eq, addRule_eq]
  cases readArgs inet toIndex vm with
  | error e => simp [bind, Except.bind, Except.map]
  | ok args =>
    have hbytes : (args.rule inet locals).bytes = encodedBytes args.ruleType args.actionType := rfl
    simp [bind, Except.bind, Except.map, exitFor_error_iff, RuleData.insertRule_false_iff, hbytes]

theorem deleteRule_false_iff {rd rd' : RuleData} {i : Nat} :
    rd.deleteRule i = some (false, rd') ↔ rd.size ≤ i ∧ rd' = rd := by
  rw [RuleData.deleteRule]
  split_ifs with hout hlast
  · constructor
    · rintro ⟨⟩
      exact ⟨by omega, rfl⟩
    · rintro ⟨_, rfl⟩
      rfl
  · exact iff_of_false (fun h => by cases h) fun h => by omega
  · refine iff_of_false (fun h => ?_) fun h => by omega
    obtain ⟨deletionPoint, _, h⟩ := Option.bind_eq_some_iff.mp h
    obtain ⟨x, _, h⟩ := Option.bind_eq_some_iff.mp h
    obtain ⟨finish, _, h⟩ := Option.bind_eq_some_iff.mp h
    obtain ⟨data, _, h⟩ := Option.bind_eq_some_iff.mp h
    cases h

theorem parseDelete_error_iff {vm : Values} {rd rd' : RuleData} :
    parseDelete toIndex vm rd = .ok (.exitWithError, rd') ↔
      ∃ value i, vm optionIndex = some value ∧ toIndex value = some i ∧ rd.size ≤ i ∧ rd' = rd := by
  rw [parseDelete, required]
  cases vm optionIndex with
  | none => simp [bind, Except.bind]
  | some value =>
    cases hi : toIndex value with
    | none => simp [bind, Except.bind, readIndex, hi]
    | some i => simp [bind, Except.bind, readIndex, hi, exitFor_error_iff, deleteRule_false_iff]

theorem parsePolicy_no_error {locals : Locals} {vm : Values} {rd rd' : RuleData} :
    parsePolicy inet locals vm rd ≠ .ok (.exitWithError, rd') := by
  rw [parsePolicy_eq]
  cases readPolicy inet vm <;> nofun

/- Without a command there is nothing to refuse. -/
theorem not_refuses {w : World} {opts : List Token}
    (h : ∀ cmd rest, po.command opts ≠ some (some cmd, rest)) :
    ¬ Refuses inet toIndex po canWrite w opts := by
  rintro (⟨hcommand, _⟩ | ⟨hcommand, _⟩ | ⟨hcommand, _⟩ | ⟨hcommand, _⟩ | ⟨hcommand, _⟩) <;>
    exact h _ _ hcommand

section Commands
variable {opts rest : List Token} {cmd : Token} (hcommand : po.command opts = some (some cmd, rest))
include hcommand

theorem parse_some {locals : Locals} {rd : RuleData} :
    parse inet toIndex locals po false opts rd =
      if cmd = optionAdd then withValues (po.values addOptions rest.tail) fun vm =>
        parseAdd inet toIndex locals vm rd
      else if cmd = optionDelete then withValues (po.values deleteOptions rest.tail) fun vm =>
        parseDelete toIndex vm rd
      else if cmd = optionClear then exitFor (some rd.clearRules)
      else if cmd = optionList then .ok (.exitWithNoError, rd)
      else if cmd = optionPolicy then withValues (po.values policyOptions rest.tail) fun vm =>
        parsePolicy inet locals vm rd
      else if cmd = optionLoad ∨ cmd = optionSave then
        withValues (po.values fileOptions rest.tail) fun _ => .error .file
      else .ok (.exitWithError, rd) := by
  simp only [parse, hcommand, Bool.false_eq_true, if_false]

/- The refusal of a line by its command. -/
theorem refuses_iff {w : World} :
    Refuses inet toIndex po canWrite w opts ↔
      (cmd = optionAdd ∧ ∃ vm, po.values addOptions rest.tail = some vm ∧
        ∃ args, readArgs inet toIndex vm = .ok args ∧
          w.rd.room (encodedBytes args.ruleType args.actionType) (place w.rd args.index) =
            some false) ∨
      (cmd = optionDelete ∧ ∃ vm, po.values deleteOptions rest.tail = some vm ∧
        ∃ value i, vm optionIndex = some value ∧ toIndex value = some i ∧ w.rd.size ≤ i) ∨
      (cmd = optionLoad ∧ ∃ file, fileName po rest.tail = .ok file ∧ w.files file = none) ∨
      (cmd = optionSave ∧ ∃ file, fileName po rest.tail = .ok file ∧ canWrite file = false) ∨
      cmd ∉ [optionAdd, optionDelete, optionClear, optionList, optionPolicy, optionLoad,
        optionSave] := by
  constructor
  · rintro (⟨h, hvm, hargs, hroom⟩ | ⟨h, hvm, hvalue, hi, hle⟩ | ⟨h, hfile, hopen⟩ |
      ⟨h, hfile, hopen⟩ | ⟨h, hcmd⟩) <;> cases hcommand.symm.trans h
    · exact .inl ⟨rfl, _, hvm, _, hargs, hroom⟩
    · exact .inr (.inl ⟨rfl, _, hvm, _, _, hvalue, hi, hle⟩)
    · exact .inr (.inr (.inl ⟨rfl, _, hfile, hopen⟩))
    · exact .inr (.inr (.inr (.inl ⟨rfl, _, hfile, hopen⟩)))
    · exact .inr (.inr (.inr (.inr hcmd)))
  · rintro (⟨rfl, _, hvm, _, hargs, hroom⟩ | ⟨rfl, _, hvm, _, _, hvalue, hi, hle⟩ |
      ⟨rfl, _, hfile, hopen⟩ | ⟨rfl, _, hfile, hopen⟩ | hcmd)
    · exact .rule hcommand hvm hargs hroom
    · exact .index hcommand hvm hvalue hi hle
    · exact .unreadable hcommand hfile hopen
    · exact .unwritable hcommand hfile hopen
    · exact .unsupported hcommand hcmd

theorem parse_error_iff {locals : Locals} {w : World} (hload : cmd ≠ optionLoad)
    (hsave : cmd ≠ optionSave) :
    (∃ rd', parse inet toIndex locals po false opts w.rd = .ok (.exitWithError, rd')) ↔
      Refuses inet toIndex po canWrite w opts := by
  rw [refuses_iff hcommand, parse_some hcommand]
  simp only [hload, hsave, false_and, false_or, or_self, if_false, List.mem_cons,
    List.not_mem_nil]
  split_ifs with hadd hdelete hclear hlist hpolicy
  · subst hadd
    have hne : optionAdd ≠ optionDelete := by decide
    simp [withValues_ok_iff, parseAdd_error_iff, hne]
  · subst hdelete
    simp [withValues_ok_iff, parseDelete_error_iff, hadd]
  · subst hclear
    simp [exitFor_error_iff, RuleData.clearRules, hadd, hdelete]
  · subst hlist
    simp [hadd, hdelete]
  · subst hpolicy
    simp [withValues_ok_iff, parsePolicy_no_error, hadd, hdelete]
  · simp [hadd, hdelete, hclear, hlist, hpolicy]

end Commands

theorem onTable_error_iff {w : World} {x : Except Failure (ExitCode × RuleData)} :
    (∃ w', onTable w x = .ok (.exitWithError, w')) ↔ ∃ rd', x = .ok (.exitWithError, rd') := by
  match x with
  | .error f => simp [onTable]
  | .ok (code, rd) => simp [onTable]

theorem saveFile_error_iff {file : Token} {w : World} :
    (∃ w', saveFile inet canWrite file w = .ok (.exitWithError, w')) ↔ canWrite file = false := by
  rw [saveFile]
  split_ifs with hopen
  · cases save inet w.rd <;> simp [hopen]
  · simp [hopen]

section Read
variable {locals : List Nat → Locals}
  {read : Token → List Char → World → Except Stop (Bool × World)}
  {path : List Nat} {opts rest : List Token} {w : World}

theorem loadFile_error_iff {file : Token} :
    (∃ w', loadFile read file w = .ok (.exitWithError, w')) ↔ w.files file = none := by
  rw [loadFile]
  cases w.files file with
  | none => simp
  | some text => cases hread : read file text w <;> simp [Except.map, hread]

theorem parseWith_load (h : po.command opts = some (some optionLoad, rest)) :
    parseWith inet toIndex po canWrite locals read path false opts w =
      match fileName po rest.tail with
      | .error f => .error (.failure f)
      | .ok file => loadFile read file w := by
  simp only [parseWith, h, true_or, true_and, if_true]
  rfl

theorem parseWith_save (h : po.command opts = some (some optionSave, rest)) :
    parseWith inet toIndex po canWrite locals read path false opts w =
      match fileName po rest.tail with
      | .error f => .error (.failure f)
      | .ok file => saveFile inet canWrite file w := by
  simp only [parseWith, h, or_true, true_and, if_true]

/-- Parse returns an error for exactly the lines that are refused, whatever a stream reads. -/
theorem parseWith_error_iff :
    (∃ w', parseWith inet toIndex po canWrite locals read path false opts w =
      .ok (.exitWithError, w')) ↔ Refuses inet toIndex po canWrite w opts := by
  match hcommand : po.command opts with
  | none =>
    simp only [parseWith, parse, hcommand]
    refine iff_of_false ?_ (not_refuses fun cmd rest h => by cases hcommand.symm.trans h)
    rintro ⟨w', h⟩
    cases h
  | some (none, rest) =>
    simp only [parseWith, parse, hcommand]
    refine iff_of_false ?_ (not_refuses fun cmd rest h => by cases hcommand.symm.trans h)
    rintro ⟨w', h⟩
    cases h
  | some (some cmd, rest) =>
    by_cases hload : cmd = optionLoad
    · subst hload
      rw [parseWith_load hcommand, refuses_iff hcommand]
      have hwords : optionLoad ≠ optionAdd ∧ optionLoad ≠ optionDelete ∧
          optionLoad ≠ optionSave := by decide
      cases fileName po rest.tail with
      | error f => simp [hwords]
      | ok file => simp [hwords, loadFile_error_iff]
    by_cases hsave : cmd = optionSave
    · subst hsave
      rw [parseWith_save hcommand, refuses_iff hcommand]
      have hwords : optionSave ≠ optionAdd ∧ optionSave ≠ optionDelete ∧
          optionSave ≠ optionLoad := by decide
      cases fileName po rest.tail with
      | error f => simp [hwords]
      | ok file => simp [hwords, saveFile_error_iff]
    · simp only [parseWith, hcommand, hload, hsave, or_self, false_and, if_false]
      rw [onTable_error_iff, parse_error_iff hcommand hload hsave]

end Read

end Refusal

section Load
variable (inet : Inet) (toIndex : Token → Option Nat) (po : ProgramOptions)
  (canWrite : Token → Bool) (locals : List Nat → Locals) (streams : Streams) (depth : Nat)
  (path : List Nat) (help : Bool) (opts : List Token) (w : World)

/- What the loop does with line n of a file that is opened at this path. -/
def parseInner (n : Nat) (line : List Char) (w : World) : Except Stop (ExitCode × World) :=
  parseLine po (parseIn inet toIndex po canWrite locals streams depth (n :: path) false) line w

/- The file that load with these options reads, and its text. -/
def Opens (file : Token) (text : List Char) : Prop :=
  ∃ rest, po.command opts = some (some optionLoad, rest) ∧ fileName po rest.tail = .ok file ∧
    w.files file = some text

/- The file that load opens has this line behind the lines pre, which are all applied. -/
def Reaches (pre : List (List Char)) (line : List Char) (w₁ : World) : Prop :=
  ∃ file text post, Opens po opts w file text ∧ getlines '\n' text = pre ++ line :: post ∧
    uncomment '#' line ≠ [] ∧
    Applied (parseInner inet toIndex po canWrite locals streams depth path) pre 0 w w₁

/- Every line of the file that load opens is parsed and applied. -/
def AppliesFile (w' : World) : Prop :=
  ∃ file text, Opens po opts w file text ∧
    Applied (parseInner inet toIndex po canWrite locals streams depth path) (getlines '\n' text) 0 w
      w'

/-- The assumption on std::fstream: at each line that the loop comes to, the stream of the file
that load opens gives what the file held when it was opened, and the loop is followed to its end.
It holds of a stream that has the file in its buffer, and of any while no line saves to the
file. -/
structure ReadsOpened : Prop where
  lines : ∀ file text pre post w₁, Opens po opts w file text → getlines '\n' text = pre ++ post →
    Applied (parseInner inet toIndex po canWrite locals streams depth path) pre 0 w w₁ →
    streams.getline file text w₁ pre.length = post.head?
  turns : ∀ file text, Opens po opts w file text → (getlines '\n' text).length < streams.turns

/-- Load returns no error only if every line of its file that holds a command was parsed and
applied; a line that is rejected, by an error or by an exception, keeps it from that. -/
structure LoadReports : Prop where
  complete : ∀ w', parseIn inet toIndex po canWrite locals streams (depth + 1) path help opts w =
      .ok (.exitWithNoError, w') →
    AppliesFile inet toIndex po canWrite locals streams depth path opts w w'
  rejected : ∀ pre line w₁,
    Reaches inet toIndex po canWrite locals streams depth path opts w pre line w₁ →
    (∀ w₂, parseInner inet toIndex po canWrite locals streams depth path pre.length
      (uncomment '#' line) w₁ ≠ .ok (.exitWithNoError, w₂)) →
    ∀ w', parseIn inet toIndex po canWrite locals streams (depth + 1) path help opts w ≠
      .ok (.exitWithNoError, w')

/- A line that Parse refuses. -/
def RefusesLine (line : List Char) : Prop :=
  ∃ tokens, po.line (optionRules ++ ' ' :: line) = some tokens ∧
    Refuses inet toIndex po canWrite w tokens.tail

variable {inet toIndex po canWrite locals streams depth path help opts w}

theorem parseIn_error_iff {path : List Nat} :
    (∃ w', parseIn inet toIndex po canWrite locals streams depth path false opts w =
      .ok (.exitWithError, w')) ↔ Refuses inet toIndex po canWrite w opts := by
  cases depth with
  | zero => exact parseWith_error_iff
  | succ depth => exact parseWith_error_iff

theorem parseInner_error_iff {n : Nat} {line : List Char} :
    (∃ w', parseInner inet toIndex po canWrite locals streams depth path n line w =
      .ok (.exitWithError, w')) ↔ RefusesLine inet toIndex po canWrite w line := by
  rw [RefusesLine]
  simp only [parseInner, parseLine]
  cases po.line (optionRules ++ ' ' :: line) with
  | none => simp
  | some tokens => simp [parseIn_error_iff]

theorem parseIn_succ :
    parseIn inet toIndex po canWrite locals streams (depth + 1) path help opts w =
      parseWith inet toIndex po canWrite locals
        (readFile streams (parseInner inet toIndex po canWrite locals streams depth path)) path help
        opts w := rfl

theorem Opens.unique {file file' : Token} {text text' : List Char} (h : Opens po opts w file text)
    (h' : Opens po opts w file' text') : file = file' ∧ text = text' := by
  obtain ⟨rest, hcommand, hfile, htext⟩ := h
  obtain ⟨rest', hcommand', hfile', htext'⟩ := h'
  cases hcommand.symm.trans hcommand'
  cases hfile.symm.trans hfile'
  exact ⟨rfl, Option.some.inj (htext.symm.trans htext')⟩

/- In a file that is applied, so is each line that is reached. -/
theorem AppliesFile.line {w' : World}
    (h : AppliesFile inet toIndex po canWrite locals streams depth path opts w w')
    {pre : List (List Char)} {line : List Char} {w₁ : World}
    (hreach : Reaches inet toIndex po canWrite locals streams depth path opts w pre line w₁) :
    ∃ w₂, parseInner inet toIndex po canWrite locals streams depth path pre.length
      (uncomment '#' line) w₁ = .ok (.exitWithNoError, w₂) := by
  obtain ⟨file, text, post, hopens, hlines, hline, hpre⟩ := hreach
  obtain ⟨file', text', hopens', happlied⟩ := h
  obtain ⟨_, htext⟩ := hopens.unique hopens'
  rw [← htext, hlines] at happlied
  obtain ⟨w₂, hpre', hrest⟩ := applied_append.mp happlied
  cases hpre.unique hpre'
  rw [Applied, if_neg hline, Nat.zero_add] at hrest
  obtain ⟨w₃, hparse, _⟩ := hrest
  exact ⟨w₃, hparse⟩

theorem readFile_eq {file : Token} {text : List Char}
    (hreads : ReadsOpened inet toIndex po canWrite locals streams depth path opts w)
    (hopens : Opens po opts w file text) :
    readFile streams (parseInner inet toIndex po canWrite locals streams depth path) file text w =
      readLines (parseInner inet toIndex po canWrite locals streams depth path)
        (getlines '\n' text) 0 w := by
  refine readStream_eq (fun pre post w₁ hsplit hpre => ?_) (hreads.turns file text hopens)
  rw [Nat.zero_add]
  exact hreads.lines file text pre post w₁ hopens hsplit hpre

section
variable {rest : List Token} (hload : po.command opts = some (some optionLoad, rest))
include hload

/- When help is asked for, nothing is read. -/
theorem load_help_iff {w' : World} :
    parseIn inet toIndex po canWrite locals streams (depth + 1) path true opts w =
        .ok (.exitWithNoError, w') ↔
      po.values fileOptions rest.tail ≠ none ∧ w' = w := by
  have hne : optionLoad ≠ optionAdd ∧ optionLoad ≠ optionDelete ∧ optionLoad ≠ optionClear ∧
      optionLoad ≠ optionList ∧ optionLoad ≠ optionPolicy := by decide
  simp only [parseIn_succ, parseWith, parse, hload, hne, Bool.true_eq_false, and_false, if_false,
    if_true, true_or]
  cases po.values fileOptions rest.tail with
  | none => simp [withValues, onTable]
  | some vm =>
    simp only [withValues, onTable, Except.ok.injEq, Prod.mk.injEq, true_and, ne_eq, reduceCtorEq,
      not_false_eq_true]
    exact eq_comm

variable (hreads : ReadsOpened inet toIndex po canWrite locals streams depth path opts w)
include hreads

/- The command returns no error however the loop ends, if no exception leaves it. -/
theorem load_ok_iff {w' : World} :
    parseIn inet toIndex po canWrite locals streams (depth + 1) path false opts w =
        .ok (.exitWithNoError, w') ↔
      ∃ file text b, Opens po opts w file text ∧
        readLines (parseInner inet toIndex po canWrite locals streams depth path)
          (getlines '\n' text) 0 w = .ok (b, w') := by
  rw [parseIn_succ, parseWith_load hload]
  constructor
  · intro h
    cases hfile : fileName po rest.tail with
    | error f =>
      rw [hfile] at h
      cases h
    | ok file =>
      simp only [hfile, loadFile] at h
      cases htext : w.files file with
      | none => simp [htext] at h
      | some text =>
        have hopens : Opens po opts w file text := ⟨rest, hload, hfile, htext⟩
        simp only [htext, readFile_eq hreads hopens] at h
        cases hread : readLines (parseInner inet toIndex po canWrite locals streams depth path)
            (getlines '\n' text) 0 w with
        | error e =>
          rw [hread] at h
          cases h
        | ok x =>
          rw [hread] at h
          cases h
          exact ⟨file, text, x.1, hopens, hread⟩
  · rintro ⟨file, text, b, hopens, hread⟩
    have hsame := readFile_eq hreads hopens
    obtain ⟨rest', hcommand, hfile, htext⟩ := hopens
    cases hload.symm.trans hcommand
    simp only [hfile, loadFile, htext, hsame, hread]
    rfl

/- The loop breaks at a line that is refused, and nothing looks at how it ended. -/
theorem load_of_refused {pre : List (List Char)} {line : List Char} {w₁ : World}
    (hreach : Reaches inet toIndex po canWrite locals streams depth path opts w pre line w₁)
    (hrefuse : RefusesLine inet toIndex po canWrite w₁ (uncomment '#' line)) :
    ∃ w', parseIn inet toIndex po canWrite locals streams (depth + 1) path false opts w =
      .ok (.exitWithNoError, w') := by
  obtain ⟨file, text, post, hopens, hlines, hline, hpre⟩ := hreach
  obtain ⟨w₂, hparse⟩ := parseInner_error_iff.mpr hrefuse
  exact ⟨w₂, (load_ok_iff hload hreads).mpr ⟨file, text, false, hopens,
    readLines_false_iff.mpr ⟨pre, line, post, w₁, hlines, hpre, hline, hparse⟩⟩⟩

theorem load_applies
    (hnone : ∀ pre line w₁,
      Reaches inet toIndex po canWrite locals streams depth path opts w pre line w₁ →
      ¬ RefusesLine inet toIndex po canWrite w₁ (uncomment '#' line)) {w' : World}
    (hok : parseIn inet toIndex po canWrite locals streams (depth + 1) path false opts w =
      .ok (.exitWithNoError, w')) :
    AppliesFile inet toIndex po canWrite locals streams depth path opts w w' := by
  obtain ⟨file, text, b, hopens, hread⟩ := (load_ok_iff hload hreads).mp hok
  cases b with
  | true => exact ⟨file, text, hopens, readLines_true_iff.mp hread⟩
  | false =>
    obtain ⟨pre, line, post, w₁, hlines, hpre, hline, hparse⟩ := readLines_false_iff.mp hread
    exact absurd (parseInner_error_iff.mp ⟨w', hparse⟩)
      (hnone pre line w₁ ⟨file, text, post, hopens, hlines, hline, hpre⟩)

/- A load that reads its file. -/
theorem load_reads_iff :
    LoadReports inet toIndex po canWrite locals streams depth path false opts w ↔
      ∀ pre line w₁, Reaches inet toIndex po canWrite locals streams depth path opts w pre line w₁ →
        ¬ RefusesLine inet toIndex po canWrite w₁ (uncomment '#' line) := by
  constructor
  · intro h pre line w₁ hreach hrefuse
    obtain ⟨w₂, hparse⟩ := parseInner_error_iff.mpr hrefuse
    obtain ⟨w', hok⟩ := load_of_refused hload hreads hreach hrefuse
    refine h.rejected pre line w₁ hreach (fun w₃ hline => ?_) w' hok
    cases hparse.symm.trans hline
  · intro hnone
    constructor
    · intro w' hok
      exact load_applies hload hreads hnone hok
    · intro pre line w₁ hreach hreject w' hok
      obtain ⟨w₂, hline⟩ := (load_applies hload hreads hnone hok).line hreach
      exact hreject w₂ hline

end

/- A load that only prints its help has left the file out. -/
theorem load_helps_iff {rest : List Token}
    (hload : po.command opts = some (some optionLoad, rest)) :
    LoadReports inet toIndex po canWrite locals streams depth path true opts w ↔
      po.values fileOptions rest.tail = none ∨
        AppliesFile inet toIndex po canWrite locals streams depth path opts w w := by
  constructor
  · intro h
    by_cases hvalues : po.values fileOptions rest.tail = none
    · exact .inl hvalues
    · exact .inr (h.complete w ((load_help_iff hload).mpr ⟨hvalues, rfl⟩))
  · rintro (hvalues | happlies)
    · have hthrows : ∀ w', parseIn inet toIndex po canWrite locals streams (depth + 1) path true
          opts w ≠ .ok (.exitWithNoError, w') := fun w' hok =>
        ((load_help_iff hload).mp hok).1 hvalues
      exact ⟨fun w' hok => absurd hok (hthrows w'), fun _ _ _ _ _ => hthrows⟩
    · constructor
      · intro w' hok
        rw [((load_help_iff hload).mp hok).2]
        exact happlies
      · intro pre line w₁ hreach hreject w' _
        obtain ⟨w₂, hline⟩ := happlies.line hreach
        exact hreject w₂ hline

/- With a stream that has the file in its buffer. -/
theorem readsOpened_buffered {turns : Nat}
    (hturns : ∀ file text, Opens po opts w file text → (getlines '\n' text).length < turns) :
    ReadsOpened inet toIndex po canWrite locals (.buffered turns) depth path opts w where
  lines file text pre post w₁ _ hsplit _ := by
    change (getlines '\n' text)[pre.length]? = post.head?
    rw [hsplit, List.getElem?_append_right (Nat.le_refl _), Nat.sub_self,
      List.head?_eq_getElem?]
  turns := hturns

end Load

/- A table without rules beside one file. -/
def oneFile (text : String) : World where
  files := fun f => if f = "rules".toList then some text.toList else none
  rd := RuleData.zeroed

def loadRules : List Token := [optionLoad, "--file".toList, "rules".toList]

theorem opens_oneFile {text : String} {file : Token} {text' : List Char}
    (h : Opens plainOptions loadRules (oneFile text) file text') : text' = text.toList := by
  obtain ⟨rest, hcommand, hfile, htext⟩ := h
  cases hcommand
  cases hfile
  cases htext
  rfl

/- A line that is no command, before one that adds a rule. -/
def flushThenAdd : World := oneFile "flush\nadd --macaddr 02:00:00:00:00:0f --action dns"

end DnsWrapper.Shm
