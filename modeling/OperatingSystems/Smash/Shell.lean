import OperatingSystems.Smash.Kernel
import Mathlib.Data.List.Sort

/-!
# The job control of `smash`

The shell is at its prompt, in one of its two loops that wait for a child in the
foreground, or waits for the two sides of a pipe. A step is a command line up to
where it waits, one pass through a loop, a call of `waitpid` that a pipe waits in, a
signal delivered between two steps, a change of a child, or a second that passes.
The result of `fork` is part of a command.

Commands are what `CreateCommand` makes of a line. Those that touch neither the
lists of jobs and timed commands nor the alarm are one command here; so is every
command whose arguments are refused.

The two sides of a pipe are executed by copies of the shell. They are not followed:
their lists are their own, and their pids are on none of the shell's.
-/

namespace OperatingSystems.Smash

/-- `JobsList::JobEntry`. -/
structure JobEntry where
  jobId : Int
  pid : Int
  startTime : Int
  cmdLine : String
  isStopped : Bool
deriving DecidableEq, Repr

/-- `TimedCmd`. -/
structure TimedCmd where
  timeToAlarm : Int
  pid : Int
  startTime : Int
  cmdS : String
  timeThis : Bool
deriving DecidableEq, Repr

/-- The constructor of `TimedCmd`. -/
def timedCmd (timeToAlarm : Int) : TimedCmd := ⟨timeToAlarm, -1, -1, "", timeToAlarm ≠ -1⟩

/-- The fields of a `Command` that the handlers and `JobEntry` use. -/
structure ForegroundCmd where
  childPid : Int
  cmdLine : String
deriving DecidableEq, Repr

/-- Where the shell is: at its prompt, in the loop of `ExternalCommand::execute`
with its iterator into the timed commands, in that of `ForegroundCommand::execute`
for a job that was on the list, or in the calls of `waitpid` that are left of
`PipeCommand::execute`, each for a copy of the shell if that could be forked. -/
inductive Mode where
  | prompt
  | external (it : Option Nat)
  | foreground (former : JobEntry)
  | piping (forked : Bool) (behind : List Bool)
deriving DecidableEq, Repr

/-- The shell and the system it runs on. A timed command is a node of a linked
list, which an iterator refers to; nodes are numbered as they are made. -/
structure Shell where
  jobsVec : List JobEntry
  timedCmds : List (Nat × TimedCmd)
  nodes : Nat
  timeThis : TimedCmd
  foregroundCmd : Option ForegroundCmd
  foregroundJobid : Int
  mode : Mode
  kernel : Kernel

/-- The shell before its first command line. -/
def start (now : Int) : Shell where
  jobsVec := []
  timedCmds := []
  nodes := 0
  timeThis := timedCmd (-1)
  foregroundCmd := none
  foregroundJobid := -1
  mode := .prompt
  kernel := ⟨fun _ => none, now, none⟩

/-- The test by which both loops over a list erase an entry. -/
def finished (status : Status) : Bool := (WIFEXITED status || WIFSIGNALED status) && !WIFSTOPPED status

/-- The loop of `JobsList::removeFinishedJobs`, which returns when `waitpid`
fails. -/
def removeFinishedLoop : Kernel → List JobEntry → Kernel × List JobEntry
  | kernel, [] => (kernel, [])
  | kernel, it :: rest =>
    match kernel.waitpid it.pid with
    | (.success status, kernel) =>
      if finished status then removeFinishedLoop kernel rest
      else
        let (kernel, rest) := removeFinishedLoop kernel rest
        (kernel, it :: rest)
    | (.failed, kernel) => (kernel, it :: rest)
    | (.nothing, kernel) =>
      let (kernel, rest) := removeFinishedLoop kernel rest
      (kernel, it :: rest)

def removeFinishedJobs (s : Shell) : Shell :=
  { s with
    kernel := (removeFinishedLoop s.kernel s.jobsVec).1
    jobsVec := (removeFinishedLoop s.kernel s.jobsVec).2 }

/-- `std::max_element`: the first of the largest entries, with its position. -/
def maxElement (less : JobEntry → JobEntry → Bool) : List JobEntry → Option (Nat × JobEntry)
  | [] => none
  | job :: rest =>
    match maxElement less rest with
    | none => some (0, job)
    | some (i, best) => if less job best then some (i + 1, best) else some (0, job)

/-- `JobEntry::operator<`. -/
def lessThan (a b : JobEntry) : Bool := a.jobId < b.jobId

/-- `JobEntry::StoppedLessThan`. -/
def stoppedLessThan (a b : JobEntry) : Bool :=
  a.jobId * (if a.isStopped then 1 else 0) < b.jobId * (if b.isStopped then 1 else 0)

/-- The ids are values of `int`, as `runs_count` shows of runs that are not too long. -/
def getMaxJobID (jobs : List JobEntry) : Int := ((maxElement lessThan jobs).map fun e => e.2.jobId).getD 0

def getLastJob (jobs : List JobEntry) : Option (Nat × JobEntry) := maxElement lessThan jobs

def getLastStoppedJob (jobs : List JobEntry) : Option (Nat × JobEntry) :=
  (maxElement stoppedLessThan jobs).filter fun e => e.2.isStopped

/-- `getJobById`: the first entry with the id, with its position. -/
def getJobById (jobId : Int) : List JobEntry → Option (Nat × JobEntry)
  | [] => none
  | job :: rest =>
    if job.jobId = jobId then some (0, job)
    else (getJobById jobId rest).map fun e => (e.1 + 1, e.2)

def removeJobById (jobId : Int) (jobs : List JobEntry) : List JobEntry :=
  jobs.eraseP fun job => job.jobId = jobId

def addJob (cmd : ForegroundCmd) (isStopped : Bool) (s : Shell) : Shell :=
  let s := removeFinishedJobs s
  let jobId := if s.foregroundJobid = -1 then getMaxJobID s.jobsVec + 1 else s.foregroundJobid
  { s with jobsVec := s.jobsVec ++ [⟨jobId, cmd.childPid, s.kernel.now, cmd.cmdLine, isStopped⟩] }

/-- `SmallShell::timeThis`, with the iterator it returns. -/
def pushTimed (s : Shell) : Option Nat × Shell :=
  if s.timeThis.timeThis then
    (some s.nodes, { s with
      timedCmds := s.timedCmds ++ [(s.nodes, s.timeThis)]
      nodes := s.nodes + 1
      timeThis := { s.timeThis with timeThis := false } })
  else (none, s)

/-- `SmallShell::reset_timed_cmd`. -/
def resetTimedCmd (it : Option Nat) (s : Shell) : Shell :=
  { s with timedCmds := s.timedCmds.map fun e => if it = some e.1 then (e.1, { e.2 with pid := -1 }) else e }

def moveToBackground (cmd : ForegroundCmd) (isStopped : Bool) (s : Shell) : Shell :=
  (pushTimed (addJob cmd isStopped s)).2

/-- The loop of `SmallShell::killTimedCmmands`, which returns when `waitpid` or
`kill` fails. -/
def killTimedLoop : Kernel → List (Nat × TimedCmd) → Kernel × List (Nat × TimedCmd)
  | kernel, [] => (kernel, [])
  | kernel, it :: rest =>
    if it.2.pid = -1 then killTimedLoop kernel rest
    else match kernel.waitpid it.2.pid with
      | (.success status, kernel) =>
        if finished status then killTimedLoop kernel rest
        else
          let (kernel, rest) := killTimedLoop kernel rest
          (kernel, it :: rest)
      | (.failed, kernel) => (kernel, it :: rest)
      | (.nothing, kernel) =>
        if it.2.timeToAlarm ≤ kernel.now - it.2.startTime then
          match kernel.kill it.2.pid SIGKILL with
          | none => (kernel, it :: rest)
          | some kernel => killTimedLoop kernel rest
        else
          let (kernel, rest) := killTimedLoop kernel rest
          (kernel, it :: rest)

def killTimedCmmands (s : Shell) : Shell :=
  { s with
    kernel := (killTimedLoop s.kernel s.timedCmds).1
    timedCmds := (killTimedLoop s.kernel s.timedCmds).2 }

/-- `alarm(seconds)`, which replaces the pending alarm, or cancels it. -/
def Kernel.setAlarm (kernel : Kernel) (seconds : Int) : Kernel :=
  { kernel with alarm := if seconds = 0 then none else some (kernel.now + seconds) }

/-- The commands. That of a pipe tells which of its two calls of `fork` succeed. -/
inductive Command where
  | external (cmdLine : String) (isInBg : Bool)
  | jobs
  | kill (signal jobId : Int)
  | fg (jobId : Option Int)
  | bg (jobId : Option Int)
  | timeout (duration : Int) (cmdLine : String) (inner : Command)
  | redirection (inner : Command)
  | pipe (left right : Bool)
  | quit
  | other

/-- Why a step is not made: it is not possible now, or the shell has ended. -/
inductive Stop where
  | disabled
  | exited
deriving DecidableEq, Repr

/-- The parent's part of `ExternalCommand::execute`, up to its loop. The system is taken to
give a new process an id that no child of the shell has had. -/
def executeExternal (cmdLine : String) (isInBg : Bool) (fork : Option Int) (s : Shell) :
    Except Stop Shell :=
  match fork with
  | none => .ok s
  | some pid =>
    if 0 < pid ∧ s.kernel.table pid = none then
      let s := { s with
        kernel := s.kernel.set pid (.running none)
        timeThis := if s.timeThis.timeThis
          then { s.timeThis with pid := pid, startTime := s.kernel.now } else s.timeThis }
      if isInBg then .ok (moveToBackground ⟨pid, cmdLine⟩ false s)
      else
        let (it, s) := pushTimed s
        .ok { s with foregroundCmd := some ⟨pid, cmdLine⟩, mode := .external it }
    else .error .disabled

/-- `JobsCommand::execute`. -/
def printJobsList (s : Shell) : Shell :=
  let s := removeFinishedJobs s
  { s with jobsVec := s.jobsVec.insertionSort fun a b => a.jobId ≤ b.jobId }

/-- The entry at a position is marked. -/
def markStopped (i : Nat) (isStopped : Bool) (jobs : List JobEntry) : List JobEntry :=
  jobs.modify i fun job => { job with isStopped := isStopped }

/-- `KillCommand::execute`. -/
def executeKill (signal jobId : Int) (s : Shell) : Shell :=
  if jobId = 0 ∨ signal < 1 ∨ 31 < signal then s
  else match getJobById jobId s.jobsVec with
    | none => s
    | some (i, job) =>
      match s.kernel.kill job.pid signal with
      | none => s
      | some kernel =>
        { s with
          kernel := kernel
          jobsVec :=
            if signal = SIGCONT then markStopped i false s.jobsVec
            else if signal = SIGSTOP then markStopped i true s.jobsVec
            else s.jobsVec }

/-- `ForegroundCommand::execute` once the job may run: it leaves the list. The
entry that was found is the first with its id. -/
def bringToForeground (job : JobEntry) (s : Shell) : Shell :=
  { s with
    foregroundCmd := some ⟨job.pid, job.cmdLine⟩
    foregroundJobid := job.jobId
    jobsVec := removeJobById job.jobId s.jobsVec
    mode := .foreground job }

/-- The job that `fg` is about, by its argument. Without one the id 0 stands for no job. -/
def fgJob (jobId : Option Int) (jobs : List JobEntry) : Option (Nat × JobEntry) :=
  match jobId with
  | none => (getLastJob jobs).filter fun e => e.2.jobId ≠ 0
  | some jobId => getJobById jobId jobs

/-- `ForegroundCommand::execute`, up to its loop. -/
def executeFg (jobId : Option Int) (s : Shell) : Shell :=
  match fgJob jobId s.jobsVec with
  | none => s
  | some (_, job) =>
    if job.isStopped then
      match s.kernel.kill job.pid SIGCONT with
      | none => s
      | some kernel => bringToForeground job { s with kernel := kernel }
    else bringToForeground job s

/-- The stopped job that `bg` is about, by its argument, in the same way. -/
def bgJob (jobId : Option Int) (jobs : List JobEntry) : Option (Nat × JobEntry) :=
  match jobId with
  | none => (getLastStoppedJob jobs).filter fun e => e.2.jobId ≠ 0
  | some jobId => (getJobById jobId jobs).filter fun e => e.2.isStopped

/-- `BackgroundCommand::execute`. -/
def executeBg (jobId : Option Int) (s : Shell) : Shell :=
  match bgJob jobId s.jobsVec with
  | none => s
  | some (i, job) =>
    match s.kernel.kill job.pid SIGCONT with
    | none => s
    | some kernel => { s with kernel := kernel, jobsVec := markStopped i false s.jobsVec }

/-- `TimeoutCommand::execute`, up to the command it runs. -/
def setTimeout (duration : Int) (cmdLine : String) (s : Shell) : Shell :=
  { s with
    timeThis := { timedCmd duration with cmdS := cmdLine }
    kernel := s.kernel.setAlarm duration }

/-- `PipeCommand::execute`, up to its first call of `waitpid`. -/
def executePipe (left right : Bool) (s : Shell) : Shell := { s with mode := .piping left [right] }

/-- `Command::execute`. -/
def execute (fork : Option Int) : Command → Shell → Except Stop Shell
  | .external cmdLine isInBg, s => executeExternal cmdLine isInBg fork s
  | .jobs, s => .ok (printJobsList s)
  | .kill signal jobId, s => .ok (executeKill signal jobId s)
  | .fg jobId, s => .ok (executeFg jobId s)
  | .bg jobId, s => .ok (executeBg jobId s)
  | .timeout duration cmdLine inner, s =>
    if duration < 0 then .ok s
    else execute fork inner (removeFinishedJobs (setTimeout duration cmdLine s))
  | .redirection inner, s => execute fork inner (removeFinishedJobs s)
  | .pipe left right, s => .ok (executePipe left right s)
  | .quit, _ => .error .exited
  | .other, s => .ok s

/-- `SmallShell::executeCommand`. -/
def executeCommand (command : Command) (fork : Option Int) (s : Shell) : Except Stop Shell :=
  execute fork command (removeFinishedJobs s)

/-- Behind either loop. -/
def leaveForeground (s : Shell) : Shell :=
  { s with foregroundCmd := none, foregroundJobid := -1, mode := .prompt }

/-- One pass through the loop the shell is in. -/
def poll (s : Shell) : Except Stop Shell :=
  match s.mode, s.foregroundCmd with
  | .external it, some cmd =>
    match s.kernel.waitpid cmd.childPid with
    | (.nothing, kernel) => .ok { s with kernel := kernel }
    | (.failed, kernel) => .ok (leaveForeground { s with kernel := kernel })
    | (.success status, kernel) =>
      let s := leaveForeground { s with kernel := kernel }
      if (WIFEXITED status && !WIFSTOPPED status) || (WIFSIGNALED status && WTERMSIG status = SIGINT)
      then .ok (resetTimedCmd it s) else .ok s
  | .foreground _, some cmd =>
    match s.kernel.waitpid cmd.childPid with
    | (.nothing, kernel) => .ok { s with kernel := kernel }
    | (.failed, kernel) => .ok (leaveForeground { s with kernel := kernel })
    | (.success status, kernel) =>
      if !WIFEXITED status && WIFCONTINUED status then .ok { s with kernel := kernel }
      else .ok (leaveForeground { s with kernel := kernel })
  | _, _ => .error .disabled

/-- Behind a call of `waitpid` of `PipeCommand::execute`. -/
def leaveWait (behind : List Bool) (s : Shell) : Shell :=
  match behind with
  | [] => { s with mode := .prompt }
  | forked :: behind => { s with mode := .piping forked behind }

/-- A call of `waitpid(child, NULL, 0)` of `PipeCommand::execute` ends. It has reaped a copy
of the shell, or there was nothing to wait for; but where `fork` has failed the child is -1,
and any child that has ended may be the one that was reaped. -/
def waitPipe (reaped : Option Int) (s : Shell) : Except Stop Shell :=
  match s.mode, reaped with
  | .piping _ behind, none => .ok (leaveWait behind s)
  | .piping forked behind, some pid =>
    if forked = false ∧ s.kernel.phase pid = .ended then
      .ok (leaveWait behind { s with kernel := (s.kernel.waitpid pid).2 })
    else .error .disabled
  | _, _ => .error .disabled

/-- `ctrlZHandler`. -/
def ctrlZHandler (s : Shell) : Shell :=
  match s.foregroundCmd with
  | none => s
  | some cmd =>
    match s.kernel.kill cmd.childPid SIGSTOP with
    | none => s
    | some kernel => moveToBackground cmd true { s with kernel := kernel }

/-- `ctrlCHandler`. -/
def ctrlCHandler (s : Shell) : Shell :=
  match s.foregroundCmd with
  | none => s
  | some cmd =>
    match s.kernel.kill cmd.childPid SIGINT with
    | none => s
    | some kernel => { s with kernel := kernel }

/-- The steps of the shell and of the system. -/
inductive Action where
  | command (command : Command) (fork : Option Int)
  | poll
  | wait (reaped : Option Int)
  | ctrlZ
  | ctrlC
  | alarm
  | change (pid : Int) (status : Status)
  | tick

/-- One step. An alarm is delivered when it is due. -/
def step (action : Action) (s : Shell) : Except Stop Shell :=
  match action with
  | .command command fork => if s.mode = .prompt then executeCommand command fork s else .error .disabled
  | .poll => poll s
  | .wait reaped => waitPipe reaped s
  | .ctrlZ => .ok (ctrlZHandler s)
  | .ctrlC => .ok (ctrlCHandler s)
  | .alarm =>
    match s.kernel.alarm with
    | some due =>
      if due ≤ s.kernel.now then
        .ok (killTimedCmmands { s with kernel := { s.kernel with alarm := none } })
      else .error .disabled
    | none => .error .disabled
  | .change pid status =>
    match (s.kernel.table pid).bind (Process.change status) with
    | some process => .ok { s with kernel := s.kernel.set pid process }
    | none => .error .disabled
  | .tick => .ok { s with kernel := { s.kernel with now := s.kernel.now + 1 } }

end OperatingSystems.Smash
