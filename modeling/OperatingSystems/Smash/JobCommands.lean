import OperatingSystems.Printing
import OperatingSystems.Smash.Timeout

/-!
# Lines that are typed at the prompt

`SmallShell::executeCommand` from the text of the line: which command it is, what its
arguments are, what it does to the jobs and what it writes. A redirection and a
timeout execute a further line.

What `perror` adds about an error is left out, and so is what is written when a loop
in the foreground has ended. Where a call of the language or of its library has no
defined result, neither has the line. The commands that touch no job write nothing
here, and what the two sides of a pipe do is left to them.

Which command of the shell a line is does not depend on the state. What executing the
line does to the shell is what that command does.
-/

namespace OperatingSystems.Smash

open Texts

/-- A line that the shell writes, to `cout` or to `cerr`. -/
inductive Message where
  | out (line : Text)
  | err (line : Text)
deriving DecidableEq, Repr

/-- What is decided from outside: the error with which `prepare` fails, if it does, for a path
and whether it appends, whether the two calls of `fork` of a pipe succeed, and how a stream
prints a number of seconds. -/
structure Terminal where
  redirects : Text → Bool → Option Text
  left : Bool
  right : Bool
  seconds : Int → Text

/-- What a line comes to: whether the shell has ended, and what it has written. -/
structure Ran where
  exited : Bool
  shell : Shell
  messages : List Message

/-- A line after which the shell goes on as it was. -/
def Shell.reports (s : Shell) (message : Message) : Ran := ⟨false, s, [message]⟩

/-- What a line comes to when something was written before. -/
def Ran.behind (messages : List Message) (ran : Ran) : Ran :=
  { ran with messages := messages ++ ran.messages }

/-- What the loop of `JobsList::removeFinishedJobs` writes. -/
def removeFinishedMessages : Kernel → List JobEntry → List Message
  | _, [] => []
  | kernel, it :: rest =>
    match kernel.waitpid it.pid with
    | (.failed, _) => [.err "smash error: waitpid failed".toList]
    | (_, kernel) => removeFinishedMessages kernel rest

/-- What `JobsList::removeFinishedJobs` writes. -/
def Shell.removalMessages (s : Shell) : List Message := removeFinishedMessages s.kernel s.jobsVec

/-- `is_digits`. -/
def isDigits (str : Text) : Bool := str.all (· ∈ "-0123456789".toList)

/-- `std::abs`, which has no defined result for the least `int`. -/
def intAbs (value : Int) : Option Int := if value = -2 ^ 31 then none else some |value|

/-- The line of a job in the list. -/
def jobLine (terminal : Terminal) (now : Int) (it : JobEntry) : Text :=
  "[".toList ++ printInt it.jobId ++ "] ".toList ++ it.cmdLine.toList ++ " : ".toList ++ printInt it.pid ++
    " ".toList ++ terminal.seconds (now - it.startTime) ++ " secs".toList ++
    if it.isStopped then " (stopped)".toList else []

/-- `JobsCommand::execute`, with `JobsList::printJobsList`. -/
def jobsCommand (terminal : Terminal) (s : Shell) : Ran :=
  let t := printJobsList s
  ⟨false, t, s.removalMessages ++ t.jobsVec.map fun it => .out (jobLine terminal t.kernel.now it)⟩

/-- A job-id that is not on the list. -/
def noSuchJob (name : Text) (jobId : Int) : Message :=
  .err ("smash error: ".toList ++ name ++ ": job-id ".toList ++ printInt jobId ++ " does not exist".toList)

/-- `KillCommand::execute`. -/
def killCommand (args : List Text) (s : Shell) : Option Ran :=
  match args with
  | [_, first, second] => do
    let jobId ← atoi second
    let value ← atoi first
    let signal ← intAbs value
    if jobId = 0 ∨ signal < 1 ∨ 31 < signal ∨ 0 < value ∨ isDigits first = false then
      some (s.reports (.err "smash error: kill: invalid arguments".toList))
    else
      match getJobById jobId s.jobsVec with
      | none => some (s.reports (noSuchJob "kill".toList jobId))
      | some (_, job) =>
        if (s.kernel.kill job.pid signal).isNone then some (s.reports (.err "smash error: kill failed".toList))
        else some ((executeKill signal jobId s).reports (.out ("signal number ".toList ++ printInt signal ++
          " was sent to pid ".toList ++ printInt job.pid)))
  | _ => some (s.reports (.err "smash error: kill: invalid arguments".toList))

/-- A job as `fg` and `bg` show it. -/
def shownJob (job : JobEntry) : Message := .out (job.cmdLine.toList ++ " : ".toList ++ printInt job.pid)

/-- `ForegroundCommand::execute` with the job it has found, up to its loop. -/
def foreground (jobId : Option Int) (job : JobEntry) (s : Shell) : Ran :=
  if job.isStopped && (s.kernel.kill job.pid SIGCONT).isNone then
    s.reports (.err "smash error: kill failed".toList)
  else (executeFg jobId s).reports (shownJob job)

/-- `ForegroundCommand::execute`. -/
def fgCommand (args : List Text) (s : Shell) : Option Ran :=
  match args with
  | [_] =>
    match getLastJob s.jobsVec with
    | none => some (s.reports (.err "smash error: fg: jobs list is empty".toList))
    | some (_, job) =>
      if job.jobId = 0 then some (s.reports (.err "smash error: fg: jobs list is empty".toList))
      else some (foreground none job s)
  | [_, word] => do
    let jobId ← atoi word
    if isDigits word = false then some (s.reports (.err "smash error: fg: invalid arguments".toList))
    else
      match getJobById jobId s.jobsVec with
      | none => some (s.reports (noSuchJob "fg".toList jobId))
      | some (_, job) => some (foreground (some jobId) job s)
  | _ => some (s.reports (.err "smash error: fg: invalid arguments".toList))

/-- `BackgroundCommand::execute` with the stopped job it has found. -/
def background (jobId : Option Int) (job : JobEntry) (s : Shell) : Ran where
  exited := false
  shell := executeBg jobId s
  messages := shownJob job ::
    if (s.kernel.kill job.pid SIGCONT).isNone then [.err "smash error: kill failed".toList] else []

/-- `BackgroundCommand::execute`. -/
def bgCommand (args : List Text) (s : Shell) : Option Ran :=
  match args with
  | [_] =>
    match getLastStoppedJob s.jobsVec with
    | none => some (s.reports (.err "smash error: bg: there is no stopped jobs to resume".toList))
    | some (_, job) =>
      if job.jobId = 0 then some (s.reports (.err "smash error: bg: there is no stopped jobs to resume".toList))
      else some (background none job s)
  | [_, word] => do
    let jobId ← atoi word
    match getJobById jobId s.jobsVec with
    | none => some (s.reports (noSuchJob "bg".toList jobId))
    | some (_, job) =>
      if job.isStopped then some (background (some jobId) job s)
      else some (s.reports (.err ("smash error: bg: job-id ".toList ++ printInt job.jobId ++
        " is already running in the background".toList)))
  | _ => some (s.reports (.err "smash error: bg: invalid arguments".toList))

/-- The loop of `JobsList::killAllJobs`. -/
def killAllLoop : Kernel → List JobEntry → Kernel × List Message
  | kernel, [] => (kernel, [])
  | kernel, it :: rest =>
    let shown := .out (printInt it.pid ++ ": ".toList ++ it.cmdLine.toList)
    match kernel.kill it.pid SIGKILL with
    | none =>
      let (kernel, messages) := killAllLoop kernel rest
      (kernel, shown :: .err "smash error: kill failed".toList :: messages)
    | some kernel =>
      let (kernel, messages) := killAllLoop kernel rest
      (kernel, shown :: messages)

/-- `JobsList::killAllJobs`. -/
def killAllJobs (s : Shell) : Shell × List Message :=
  let jobs := s.jobsVec.insertionSort fun a b => a.jobId ≤ b.jobId
  let (kernel, messages) := killAllLoop s.kernel jobs
  ({ s with kernel := kernel, jobsVec := jobs },
    .out ("smash: sending SIGKILL signal to ".toList ++ printUnsigned jobs.length ++ " jobs:".toList) :: messages)

/-- `QuitCommand::execute`, and the end of the shell. -/
def quitCommand (args : List Text) (s : Shell) : Ran :=
  match args with
  | _ :: arg :: _ =>
    if trim arg = "kill".toList then ⟨true, (killAllJobs s).1, (killAllJobs s).2⟩ else ⟨true, s, []⟩
  | _ => ⟨true, s, []⟩

/-- What the parent's part of `ExternalCommand::execute` writes up to its loop. A command in
the background is added to the jobs, from which the finished ones are removed. -/
def externalMessages (isInBg : Bool) (fork : Option Int) (s : Shell) : List Message :=
  match fork with
  | none => [.err "smash error: fork failed".toList]
  | some pid => if isInBg then removeFinishedMessages (s.kernel.set pid (.running none)) s.jobsVec else []

/-- The parent's part of `ExternalCommand::execute`, up to its loop. -/
def externalCommand (base : CommandObject) (isInBg : Bool) (fork : Option Int) (s : Shell) : Option Ran :=
  match executeExternal (String.ofList base.cmdLineConst) isInBg fork s with
  | .ok t => some ⟨false, t, externalMessages isInBg fork s⟩
  | .error _ => none

/-- `SmallShell::executeCommand`. The command that `prepare` empties when it fails is
executed too. -/
def runLine (terminal : Terminal) (fork : Option Int) : Nat → Text → Shell → Option Ran
  | 0, _, _ => none
  | fuel + 1, cmdLine, s =>
    match createCommand cmdLine with
    | none => none
    | some created =>
      let t := removeFinishedJobs s
      let ran := match created with
        | .redirection _ cmd filePath append =>
          match terminal.redirects filePath append with
          | none => runLine terminal fork fuel cmd t
          | some error => (runLine terminal fork fuel [] t).map (Ran.behind [.err error])
        | .pipe .. => some ⟨false, executePipe terminal.left terminal.right t, []⟩
        | .builtIn .quit base => some (quitCommand base.args t)
        | .builtIn .jobs _ => some (jobsCommand terminal t)
        | .builtIn .kill base => killCommand base.args t
        | .builtIn .fg base => fgCommand base.args t
        | .builtIn .bg base => bgCommand base.args t
        | .builtIn _ _ => some ⟨false, t, []⟩
        | .timeout base =>
          match timeoutExecute base t with
          | none => none
          | some (.refused message) => some (t.reports (.err message))
          | some (.runs u cmd) => runLine terminal fork fuel cmd u
        | .external base isInBg => externalCommand base isInBg fork t
      ran.map (Ran.behind s.removalMessages)

/-- The command that a `kill` with these arguments is. -/
def killArguments (args : List Text) : Option Command :=
  match args with
  | [_, first, second] => do
    let jobId ← atoi second
    let value ← atoi first
    let signal ← intAbs value
    some (if 0 < value ∨ isDigits first = false then .other else .kill signal jobId)
  | _ => some .other

/-- The command that an `fg` with these arguments is. -/
def fgArguments (args : List Text) : Option Command :=
  match args with
  | [_] => some (.fg none)
  | [_, word] => do
    let jobId ← atoi word
    some (if isDigits word = false then .other else .fg (some jobId))
  | _ => some .other

/-- The command that a `bg` with these arguments is. -/
def bgArguments (args : List Text) : Option Command :=
  match args with
  | [_] => some (.bg none)
  | [_, word] => do
    let jobId ← atoi word
    some (.bg (some jobId))
  | _ => some .other

def builtInCommand (name : BuiltIn) (args : List Text) : Option Command :=
  match name with
  | .quit => some .quit
  | .jobs => some .jobs
  | .kill => killArguments args
  | .fg => fgArguments args
  | .bg => bgArguments args
  | _ => some .other

/-- The duration and the further line of a timeout, unless its arguments are refused. -/
def timeoutArguments (base : CommandObject) : Option (Option (Int × Text)) :=
  match base.args with
  | _ :: word :: _ :: _ => do
    let duration ← atoi word
    if duration < 0 then some none
    else do
      let last ← word.getLast?
      let cmdStartIndex ← base.cmdLine.findIdx? (· = last)
      some (some (duration, base.cmdLine.drop (cmdStartIndex + 1)))
  | _ => some none

/-- The command that a line is, whatever the state of the shell. -/
def lineCommand (terminal : Terminal) : Nat → Text → Option Command
  | 0, _ => none
  | fuel + 1, cmdLine => do
    match ← createCommand cmdLine with
    | .redirection _ cmd filePath append =>
      let inner := if (terminal.redirects filePath append).isNone then cmd else []
      (lineCommand terminal fuel inner).map .redirection
    | .pipe .. => some (.pipe terminal.left terminal.right)
    | .builtIn name base => builtInCommand name base.args
    | .timeout base =>
      match ← timeoutArguments base with
      | none => some .other
      | some (duration, cmd) =>
        (lineCommand terminal fuel cmd).map (.timeout duration (String.ofList base.cmdLineConst))
    | .external base isInBg => some (.external (String.ofList base.cmdLineConst) isInBg)

section Refinement

variable {terminal : Terminal} {fork : Option Int} {fuel : Nat} {args : List Text} {cmdLine : Text}
  {s : Shell} {ran : Ran}

/-- What a line comes to, as a step of the shell. -/
def Ran.result (ran : Ran) : Except Stop Shell := if ran.exited then .error .exited else .ok ran.shell

@[simp] theorem Ran.behind_result (messages : List Message) (ran : Ran) :
    (ran.behind messages).result = ran.result := rfl

theorem killCommand_refines (fork : Option Int) (run : killCommand args s = some ran) :
    ∃ command, killArguments args = some command ∧ execute fork command s = ran.result := by
  unfold killCommand at run
  unfold killArguments
  split at run
  · obtain ⟨jobId, second, run⟩ := Option.bind_eq_some_iff.mp run
    obtain ⟨value, first, run⟩ := Option.bind_eq_some_iff.mp run
    obtain ⟨signal, size, run⟩ := Option.bind_eq_some_iff.mp run
    simp only [second, first, size, Option.bind_eq_bind, Option.bind_some, Option.some.injEq, exists_eq_left']
    split at run
    · next refused =>
      -- What the test of the arguments refuses is no command, or one that does nothing.
      obtain rfl := Option.some.inj run
      split
      · rfl
      · next proper =>
        have nothing : executeKill signal jobId s = s := if_pos (by tauto)
        exact congrArg Except.ok nothing
    · next allowed =>
      rw [if_neg (by tauto)]
      split at run
      · next missing =>
        obtain rfl := Option.some.inj run
        have nothing : executeKill signal jobId s = s := by simp [executeKill, missing]
        exact congrArg Except.ok nothing
      · next i job found =>
        split at run
        · next unreached =>
          obtain rfl := Option.some.inj run
          have nothing : executeKill signal jobId s = s := by
            simp [executeKill, found, Option.isNone_iff_eq_none.mp unreached]
          exact congrArg Except.ok nothing
        · exact Option.some.inj run ▸ rfl
  · obtain rfl := Option.some.inj run
    exact ⟨.other, rfl, rfl⟩

/-- `fg` with a job that it has found changes the shell as the command does. -/
theorem foreground_shell {jobId : Option Int} {i : Nat} {job : JobEntry}
    (found : fgJob jobId s.jobsVec = some (i, job)) :
    (foreground jobId job s).result = execute fork (.fg jobId) s := by
  unfold foreground
  split
  · next refused =>
    obtain ⟨stopped, unreached⟩ := Bool.and_eq_true_iff.mp refused
    unfold execute executeFg
    simp only [found, if_pos stopped, Option.isNone_iff_eq_none.mp unreached]
    rfl
  · rfl

theorem fgCommand_refines (fork : Option Int) (run : fgCommand args s = some ran) :
    ∃ command, fgArguments args = some command ∧ execute fork command s = ran.result := by
  unfold fgCommand at run
  unfold fgArguments
  split at run
  · refine ⟨.fg none, rfl, ?_⟩
    split at run
    · next missing =>
      obtain rfl := Option.some.inj run
      simp [execute, executeFg, fgJob, missing, Ran.result, Shell.reports]
    · next i job last =>
      split at run
      · next unnamed =>
        obtain rfl := Option.some.inj run
        simp [execute, executeFg, fgJob, last, unnamed, Option.filter, Ran.result, Shell.reports]
      · next named =>
        obtain rfl := Option.some.inj run
        exact (foreground_shell (i := i) (by simp [fgJob, last, named, Option.filter])).symm
  · obtain ⟨jobId, number, run⟩ := Option.bind_eq_some_iff.mp run
    simp only [number, Option.bind_eq_bind, Option.bind_some, Option.some.injEq, exists_eq_left']
    split at run
    · next refused =>
      obtain rfl := Option.some.inj run
      rw [if_pos refused]
      rfl
    · next digits =>
      rw [if_neg digits]
      split at run
      · next missing =>
        obtain rfl := Option.some.inj run
        simp [execute, executeFg, fgJob, missing, Ran.result, Shell.reports]
      · next i job found =>
        obtain rfl := Option.some.inj run
        exact (foreground_shell (show fgJob (some jobId) s.jobsVec = some (i, job) from found)).symm
  · obtain rfl := Option.some.inj run
    exact ⟨.other, rfl, rfl⟩

theorem bgCommand_refines (fork : Option Int) (run : bgCommand args s = some ran) :
    ∃ command, bgArguments args = some command ∧ execute fork command s = ran.result := by
  unfold bgCommand at run
  unfold bgArguments
  split at run
  · refine ⟨.bg none, rfl, ?_⟩
    split at run
    · next missing =>
      obtain rfl := Option.some.inj run
      simp [execute, executeBg, bgJob, missing, Ran.result, Shell.reports]
    · next i job last =>
      split at run
      · next unnamed =>
        obtain rfl := Option.some.inj run
        simp [execute, executeBg, bgJob, last, unnamed, Option.filter, Ran.result, Shell.reports]
      · exact Option.some.inj run ▸ rfl
  · obtain ⟨jobId, number, run⟩ := Option.bind_eq_some_iff.mp run
    simp only [number, Option.bind_eq_bind, Option.bind_some, Option.some.injEq, exists_eq_left']
    split at run
    · next missing =>
      obtain rfl := Option.some.inj run
      simp [execute, executeBg, bgJob, missing, Ran.result, Shell.reports]
    · next i job found =>
      split at run
      · exact Option.some.inj run ▸ rfl
      · next running =>
        obtain rfl := Option.some.inj run
        simp [execute, executeBg, bgJob, found, running, Option.filter, Ran.result, Shell.reports]
  · obtain rfl := Option.some.inj run
    exact ⟨.other, rfl, rfl⟩

theorem quitCommand_refines (fork : Option Int) (args : List Text) (s : Shell) :
    execute fork .quit s = (quitCommand args s).result := by
  unfold quitCommand
  split
  · split <;> rfl
  · rfl

theorem externalCommand_refines {base : CommandObject} {isInBg : Bool}
    (run : externalCommand base isInBg fork s = some ran) :
    execute fork (.external (String.ofList base.cmdLineConst) isInBg) s = ran.result := by
  unfold externalCommand at run
  split at run
  · next t executes => exact Option.some.inj run ▸ executes
  · exact absurd run (by simp)

/-- The text that a timeout executes is the end of its line, and its duration is registered. -/
theorem timeoutExecute_cases {base : CommandObject} {t : Shell} {cmd : Text}
    (run : timeoutExecute base s = some (.runs t cmd)) : ∃ duration i, ¬duration < 0 ∧ i < base.cmdLine.length ∧
      t = setTimeout duration (String.ofList base.cmdLineConst) s ∧ cmd = base.cmdLine.drop (i + 1) ∧
      timeoutArguments base = some (some (duration, cmd)) := by
  unfold timeoutExecute at run
  split at run
  · next args =>
    obtain ⟨duration, number, run⟩ := Option.bind_eq_some_iff.mp run
    split at run
    · exact absurd run (by simp)
    · next positive =>
      obtain ⟨last, ends, run⟩ := Option.bind_eq_some_iff.mp run
      obtain ⟨i, place, run⟩ := Option.bind_eq_some_iff.mp run
      obtain ⟨rfl, rfl⟩ := TimeoutOutcome.runs.inj (Option.some.inj run)
      refine ⟨duration, i, positive, (List.findIdx?_eq_some_iff_getElem.mp place).1, rfl, rfl, ?_⟩
      unfold timeoutArguments
      simp only [args, number, ends, place, Option.bind_eq_bind, Option.bind_some, if_neg positive]
  · exact absurd run (by simp)

/-- A timeout that refuses its arguments does so in every state. -/
theorem timeoutExecute_refused {base : CommandObject} {message : Text}
    (run : timeoutExecute base s = some (.refused message)) : timeoutArguments base = some none := by
  unfold timeoutExecute at run
  split at run
  · next args =>
    obtain ⟨duration, number, run⟩ := Option.bind_eq_some_iff.mp run
    split at run
    · next negative =>
      unfold timeoutArguments
      simp only [args, number, Option.bind_eq_bind, Option.bind_some, if_pos negative]
    · obtain ⟨last, -, run⟩ := Option.bind_eq_some_iff.mp run
      obtain ⟨i, -, run⟩ := Option.bind_eq_some_iff.mp run
      exact absurd run (by simp)
  · next few =>
    unfold timeoutArguments
    split
    · next args => exact absurd args (few _ _ _ _)
    · rfl

/-- A further line that a command executes is shorter than its own. -/
def Created.Within (cmdLine : Text) : Created → Prop
  | .redirection _ cmd _ _ => cmd.length < cmdLine.length
  | .timeout base => base.cmdLine = cmdLine
  | _ => True

theorem eraseSign_length (part : Text) : (eraseSign part).length ≤ part.length := by
  unfold eraseSign
  split
  · exact List.length_take_le' _ _
  · exact Nat.le_refl _

theorem createCommand_within {created : Created} (made : createCommand cmdLine = some created) :
    created.Within cmdLine := by
  unfold createCommand at made
  simp only at made
  split at made
  · obtain ⟨_, -, made⟩ := Option.bind_eq_some_iff.mp made
    obtain ⟨arrowIndex, found, made⟩ := Option.bind_eq_some_iff.mp made
    obtain ⟨_, -, made⟩ := Option.bind_eq_some_iff.mp made
    obtain ⟨_, -, made⟩ := Option.bind_eq_some_iff.mp made
    obtain rfl := Option.some.inj made
    obtain ⟨place, isPlace, isInt⟩ := Option.bind_eq_some_iff.mp found
    obtain rfl := Option.some.inj (Option.ite_none_right_eq_some.mp isInt).2
    have inside := (List.findIdx?_eq_some_iff_getElem.mp isPlace).1
    refine Nat.lt_of_le_of_lt (eraseSign_length _) ?_
    rw [List.length_take]
    omega
  · split at made
    · obtain ⟨_, -, made⟩ := Option.bind_eq_some_iff.mp made
      obtain ⟨_, -, made⟩ := Option.bind_eq_some_iff.mp made
      obtain ⟨_, -, made⟩ := Option.bind_eq_some_iff.mp made
      obtain ⟨_, -, made⟩ := Option.bind_eq_some_iff.mp made
      exact Option.some.inj made ▸ trivial
    · split at made
      · obtain ⟨_, -, rfl⟩ := Option.map_eq_some_iff.mp made
        trivial
      · split at made
        · obtain ⟨base, object, rfl⟩ := Option.map_eq_some_iff.mp made
          obtain ⟨_, -, object⟩ := Option.bind_eq_some_iff.mp object
          exact Option.some.inj object ▸ rfl
        · obtain ⟨_, -, made⟩ := Option.bind_eq_some_iff.mp made
          obtain ⟨_, -, made⟩ := Option.bind_eq_some_iff.mp made
          exact Option.some.inj made ▸ trivial

/-- More fuel than the line has characters changes nothing. -/
theorem runLine_fuel (terminal : Terminal) (fork : Option Int) (cmdLine : Text) (s : Shell) {fuel : Nat}
    (enough : cmdLine.length < fuel) :
    runLine terminal fork fuel cmdLine s = runLine terminal fork (cmdLine.length + 1) cmdLine s := by
  induction size : cmdLine.length using Nat.strong_induction_on generalizing cmdLine s fuel with
  | _ n inductionHypothesis =>
    obtain ⟨fuel, rfl⟩ := Nat.exists_eq_succ_of_ne_zero (Nat.ne_zero_of_lt enough)
    -- Both amounts of fuel are enough for a shorter line.
    have shorter {cmd : Text} (less : cmd.length < n) (t : Shell) :
        runLine terminal fork fuel cmd t = runLine terminal fork n cmd t := by
      have first := inductionHypothesis cmd.length less cmd t (show cmd.length < fuel by omega) rfl
      have second := inductionHypothesis cmd.length less cmd t (show cmd.length < n by omega) rfl
      exact first.trans second.symm
    unfold runLine
    cases made : createCommand cmdLine with
    | none => rfl
    | some created =>
      have within := createCommand_within made
      cases created with
      | redirection base cmd filePath append =>
        have less : cmd.length < n := size ▸ within
        have empty : ([] : Text).length < n := Nat.lt_of_le_of_lt (Nat.zero_le _) less
        simp only [shorter less, shorter empty]
      | timeout base =>
        simp only
        cases executes : timeoutExecute base (removeFinishedJobs s) with
        | none => rfl
        | some outcome =>
          cases outcome with
          | refused message => rfl
          | runs t cmd =>
            obtain ⟨duration, i, -, inside, -, rfl, -⟩ := timeoutExecute_cases executes
            have less : (base.cmdLine.drop (i + 1)).length < n := by
              rw [List.length_drop]
              rw [show base.cmdLine = cmdLine from within] at inside ⊢
              omega
            simp only [shorter less]
      | builtIn name base => cases name <;> rfl
      | _ => rfl

/-- Every line that is executed is the command that its text stands for. -/
theorem runLine_refines (typed : runLine terminal fork fuel cmdLine s = some ran) :
    ∃ command, lineCommand terminal fuel cmdLine = some command ∧ executeCommand command fork s = ran.result := by
  induction fuel generalizing cmdLine s ran with
  | zero => exact absurd typed (by simp [runLine])
  | succ fuel inductionHypothesis =>
    unfold runLine at typed
    unfold executeCommand lineCommand
    split at typed
    · exact absurd typed (by simp)
    · next created made =>
      obtain ⟨ran, run, rfl⟩ := Option.map_eq_some_iff.mp typed
      simp only [Ran.behind_result, made, Option.bind_eq_bind, Option.bind_some]
      cases created with
      | redirection base cmd filePath append =>
        simp only at run ⊢
        split at run
        · next opened =>
          obtain ⟨command, inner, runs⟩ := inductionHypothesis run
          exact ⟨.redirection command, by simp [opened, inner], runs⟩
        · next error refused =>
          obtain ⟨ran, empty, rfl⟩ := Option.map_eq_some_iff.mp run
          obtain ⟨command, inner, runs⟩ := inductionHypothesis empty
          exact ⟨.redirection command, by simp [refused, inner], runs⟩
      | pipe base cmd1 cmd2 redirErr => exact ⟨_, rfl, Option.some.inj run ▸ rfl⟩
      | builtIn name base =>
        cases name with
        | quit => exact ⟨.quit, rfl, Option.some.inj run ▸ quitCommand_refines fork base.args _⟩
        | jobs => exact ⟨.jobs, rfl, Option.some.inj run ▸ rfl⟩
        | kill => exact killCommand_refines fork run
        | fg => exact fgCommand_refines fork run
        | bg => exact bgCommand_refines fork run
        | _ => exact ⟨.other, rfl, Option.some.inj run ▸ rfl⟩
      | timeout base =>
        simp only at run ⊢
        split at run
        · exact absurd run (by simp)
        · next message executes =>
          obtain rfl := Option.some.inj run
          exact ⟨.other, by rw [timeoutExecute_refused executes]; rfl, rfl⟩
        · next t cmd executes =>
          obtain ⟨duration, i, positive, -, rfl, -, arguments⟩ := timeoutExecute_cases executes
          obtain ⟨command, inner, runs⟩ := inductionHypothesis run
          refine ⟨.timeout duration _ command, ?_, (if_neg positive).trans runs⟩
          simp only [arguments, Option.bind_some, inner, Option.map_some]
      | external base isInBg => exact ⟨_, rfl, externalCommand_refines run⟩

end Refinement

section Typing

variable {name rest : Text} {known : BuiltIn}

/-- A line is told by its first word when blanks follow that. -/
theorem trim_named (nonempty : name ≠ []) (word : ∀ c ∈ name, isSpace c = false)
    (solid : ∃ c ∈ rest, isSpace c = false) :
    ∃ kept, trim (name ++ ' ' :: rest) = name ++ ' ' :: kept := by
  obtain ⟨front, c, back, rfl, isSolid, blank⟩ :=
    exists_last (p := (!isSpace ·)) (solid.imp fun c found => ⟨found.1, by simp [found.2]⟩)
  obtain ⟨d, more, rfl⟩ := List.exists_cons_of_ne_nil nonempty
  have starts : isSpace d = false := word d List.mem_cons_self
  have start : (d :: more ++ ' ' :: (front ++ c :: back)).dropWhile isSpace =
      (d :: more ++ ' ' :: front) ++ c :: back := by
    rw [List.cons_append, List.dropWhile_cons_of_neg (by simp [starts])]
    simp
  rw [trim, ltrim_eq, start, rtrim_eq, rdropWhile_append_cons (by simpa using isSolid)
    fun d member => by simpa using blank d member]
  exact ⟨front ++ [c], by simp⟩

/-- A built-in command with arguments. -/
theorem createCommand_builtIn (isKnown : builtIns.lookup name = some known) (nonempty : name ≠ [])
    (word : ∀ c ∈ name, isSpace c = false) (noOperator : ∀ c ∈ name, c ≠ '>' ∧ c ≠ '|')
    (solid : ∃ c ∈ rest, isSpace c = false) (plain : ∀ c ∈ rest, c ≠ '>' ∧ c ≠ '|' ∧ c ≠ '&')
    (few : (words isSpace rest).length + 1 < commandMaxArgs)
    (short : (name ++ ' ' :: rest).length < 2 ^ 31) : createCommand (name ++ ' ' :: rest) =
      some (.builtIn known ⟨name :: words isSpace rest, name ++ ' ' :: rest, name ++ ' ' :: rest⟩) := by
  have regroup : name ++ ' ' :: rest = (name ++ [' ']) ++ rest := by simp
  have split : words isSpace ((name ++ [' ']) ++ rest) = name :: words isSpace rest := by
    rw [List.append_assoc]
    exact words_word_append nonempty word (by simp) (by decide)
  have object := commandObject_tail (name ++ [' ']) solid (fun sign => (plain _ sign).2.2 rfl)
    (by rwa [split]) (regroup ▸ short)
  rw [split, ← regroup] at object
  have noArrow : '>' ∉ trim (name ++ ' ' :: rest) := fun member => by
    rcases List.mem_append.mp ((mem_trim (by decide)).mp member) with inName | inRest
    · exact (noOperator _ inName).1 rfl
    · exact (plain _ ((List.mem_cons.mp inRest).resolve_left (by decide))).1 rfl
  have noPipe : '|' ∉ trim (name ++ ' ' :: rest) := fun member => by
    rcases List.mem_append.mp ((mem_trim (by decide)).mp member) with inName | inRest
    · exact (noOperator _ inName).2 rfl
    · exact (plain _ ((List.mem_cons.mp inRest).resolve_left (by decide))).2.1 rfl
  obtain ⟨kept, trims⟩ := trim_named nonempty word solid
  have ends : ∀ c ∈ name, decide (c ∈ [' ', '\n']) = false := fun c member => by
    have solid := word c member
    simp only [isSpace, List.mem_cons, decide_eq_false_iff_not, not_or] at solid ⊢
    exact ⟨solid.1, solid.2.1, List.not_mem_nil⟩
  have first : (trim (name ++ ' ' :: rest)).take (((trim (name ++ ' ' :: rest)).findIdx?
      (· ∈ [' ', '\n'])).getD (trim (name ++ ' ' :: rest)).length) = name := by
    rw [trims, findIdx?_append_cons (p := (· ∈ [' ', '\n'])) (by decide) ends]
    simp
  simp only [createCommand, if_neg noArrow, if_neg noPipe, first, isKnown, object, Option.map_some]

/-- Digits, with a dash or without, are what the commands take. -/
theorem isDigits_numeral (n : Nat) : isDigits (printUnsigned n) = true := by
  refine List.all_eq_true.mpr fun c member => decide_eq_true ?_
  have digit := (printUnsigned_numeral n).2 c member
  simp only [Char.isDigit, Bool.and_eq_true, decide_eq_true_eq] at digit
  have low : 48 ≤ c.val.toNat := digit.1
  have high : c.val.toNat ≤ 57 := digit.2
  have values : ∀ n : Fin 58, 48 ≤ n.val → Char.ofNat n.val ∈ "-0123456789".toList := by decide
  have self : Char.ofNat c.val.toNat = c := Char.ofNat_toNat c
  exact self ▸ values ⟨c.val.toNat, by omega⟩ low

/-- What was printed of a job-id is read back. -/
theorem atoi_printed {n : Nat} (fits : n < 2 ^ 31) : atoi (printUnsigned n) = some (n : Int) := by
  rw [atoi_digits (printUnsigned_numeral n) (by rwa [decimal_printUnsigned]), decimal_printUnsigned]

theorem atoi_negated {n : Nat} (fits : n < 2 ^ 31) : atoi ('-' :: printUnsigned n) = some (-(n : Int)) := by
  rw [atoi_dash (printUnsigned_numeral n) (by rwa [decimal_printUnsigned]), decimal_printUnsigned]

/-- A signal with a dash and a job-id that was printed send the signal to that job. -/
theorem killCommand_typed {jobId signal : Nat} (named : 0 < jobId) (fits : jobId < 2 ^ 31) (low : 0 < signal)
    (high : signal < 32) {s : Shell} {i : Nat} {job : JobEntry}
    (found : getJobById jobId s.jobsVec = some (i, job)) {kernel : Kernel}
    (reaches : s.kernel.kill job.pid signal = some kernel) :
    killCommand [name, '-' :: printUnsigned signal, printUnsigned jobId] s =
      some ((executeKill signal jobId s).reports (.out ("signal number ".toList ++ printInt signal ++
        " was sent to pid ".toList ++ printInt job.pid))) := by
  have size : intAbs (-(signal : Int)) = some (signal : Int) := by
    rw [intAbs, if_neg (by omega), abs_neg, abs_of_nonneg (by omega)]
  have digits : isDigits ('-' :: printUnsigned signal) = true := by
    have rest := isDigits_numeral signal
    unfold isDigits at rest ⊢
    rw [List.all_cons, rest]
    decide
  have proper : ¬((jobId : Int) = 0 ∨ (signal : Int) < 1 ∨ 31 < (signal : Int) ∨ 0 < -(signal : Int) ∨
      isDigits ('-' :: printUnsigned signal) = false) := by
    simp only [digits, Bool.true_eq_false, or_false]
    omega
  unfold killCommand
  simp only [atoi_printed fits, atoi_negated (show signal < 2 ^ 31 by omega), size, if_neg proper, found, reaches,
    Option.bind_eq_bind, Option.bind_some, Option.isNone_some, Bool.false_eq_true, if_false]

/-- A job-id that was printed brings that job to the foreground. -/
theorem fgCommand_typed {jobId : Nat} (fits : jobId < 2 ^ 31) {s : Shell} {i : Nat} {job : JobEntry}
    (found : getJobById jobId s.jobsVec = some (i, job)) :
    fgCommand [name, printUnsigned jobId] s = some (foreground (some jobId) job s) := by
  unfold fgCommand
  simp only [atoi_printed fits, isDigits_numeral, found, Option.bind_eq_bind, Option.bind_some,
    Bool.true_eq_false, if_false]

end Typing

end OperatingSystems.Smash
