import OperatingSystems.Runs
import OperatingSystems.Smash.Jobs

/-!
# What a step of the shell does

One lemma for each command, for a pass through a loop and for the handlers. A
rule for command lines takes care of the commands that run other commands.
-/

namespace OperatingSystems.Smash

variable {s t : Shell} {k l m : Kernel} {jobs : List JobEntry} {job : JobEntry} {cmd : ForegroundCmd}
  {pid jobId : Int}

/-- No process came to life, and none that was reaped came back. -/
structure Fades (k l : Kernel) : Prop where
  alive : ∀ pid, l.phase pid = .alive → k.phase pid = .alive
  absent : ∀ pid, l.phase pid = .absent ↔ k.phase pid = .absent
  reaped : ∀ pid, k.phase pid = .reaped → l.phase pid = .reaped
  now : l.now = k.now

namespace Fades

theorem refl (k : Kernel) : Fades k k := ⟨fun _ => id, fun _ => Iff.rfl, fun _ => id, rfl⟩

theorem trans (first : Fades k l) (second : Fades l m) : Fades k m where
  alive := fun pid alive => first.alive pid (second.alive pid alive)
  absent := fun pid => (second.absent pid).trans (first.absent pid)
  reaped := fun pid gone => second.reaped pid (first.reaped pid gone)
  now := second.now.trans first.now

/-- Phases that stay fade. -/
theorem same (phase : l.phase = k.phase) (now : l.now = k.now) : Fades k l := by
  constructor
  · intro pid alive
    rwa [phase] at alive
  · intro pid
    rw [phase]
  · intro pid gone
    rwa [phase]
  · exact now

/-- A living process lives on or ends. -/
theorem update {next : Phase} (lived : k.phase pid = .alive) (becomes : next = .alive ∨ next = .ended)
    (phase : l.phase = Function.update k.phase pid next) (now : l.now = k.now) : Fades k l := by
  have either : ∀ other, l.phase other = k.phase other ∨
      (k.phase other = .alive ∧ (l.phase other = .alive ∨ l.phase other = .ended)) := by
    intro other
    rw [phase]
    by_cases here : other = pid
    · subst here
      rw [Function.update_self]
      exact Or.inr ⟨lived, becomes⟩
    · rw [Function.update_of_ne here]
      exact Or.inl rfl
  refine ⟨fun other => ?_, fun other => ?_, fun other => ?_, now⟩
  all_goals rcases either other with stays | ⟨lived, lives | ended⟩ <;> simp_all

end Fades

theorem Reaps.fades (reaps : Reaps k l) : Fades k l :=
  ⟨fun _ => reaps.alive.mp, fun _ => reaps.absent, fun _ => reaps.reaped, reaps.now⟩

/-- Those that live on are stopped as before, or not. -/
def Steady (k l : Kernel) : Prop := ∀ pid, l.phase pid = .alive → l.isStopped pid = k.isStopped pid

theorem Steady.trans (first : Steady k l) (second : Steady l m) (fades : Fades l m) : Steady k m :=
  fun pid alive => (second pid alive).trans (first pid (fades.alive pid alive))

/-- A signal ends a process at most. -/
theorem kill_fades {signal : Int} (kills : k.kill pid signal = some l) :
    Fades k l ∧ l.alarm = k.alarm := by
  cases phase : k.phase pid with
  | absent =>
    rw [kill_gone (Or.inl phase)] at kills
    exact absurd kills (by simp)
  | reaped =>
    rw [kill_gone (Or.inr phase)] at kills
    exact absurd kills (by simp)
  | ended =>
    obtain ⟨m, killed, same, now, alarm⟩ := kill_ended signal phase
    obtain rfl := Option.some.inj (killed.symm.trans kills)
    exact ⟨Fades.same same now, alarm⟩
  | alive =>
    obtain ⟨m, killed, same, now, alarm⟩ := kill_alive signal phase
    obtain rfl := Option.some.inj (killed.symm.trans kills)
    refine ⟨Fades.update phase ?_ same now, alarm⟩
    split
    · exact Or.inr rfl
    · exact Or.inl rfl

/-- What the loop of `killTimedCmmands` does with an entry that it does not stop
at: the entry stays, or it goes because its process is none, has ended or was
killed. No other process is concerned. -/
structure Handles (k : Kernel) (it : Nat × TimedCmd) (m : Kernel) (stays : Bool) : Prop where
  others : ∀ pid, pid ≠ it.2.pid → m.table pid = k.table pid
  fades : Fades k m
  steady : Steady k m
  alarm : m.alarm = k.alarm
  nobody : it.2.pid = -1 → stays = false ∧ m = k
  spared : stays = true → k.phase it.2.pid = .alive ∧ m.phase it.2.pid = .alive ∧
    (k.news it.2.pid ≠ none ∨ k.now - it.2.startTime < it.2.timeToAlarm)
  gone : stays = false → it.2.pid = -1 ∨
    k.phase it.2.pid = .ended ∧ m.phase it.2.pid = .reaped ∨
    k.phase it.2.pid = .alive ∧ k.news it.2.pid = none ∧
      it.2.timeToAlarm ≤ k.now - it.2.startTime ∧
      m.table it.2.pid = some (.terminated (.signaled SIGKILL))

/-- The loop of `killTimedCmmands` stops at an entry that it cannot wait for, or
handles it and goes on. -/
theorem killTimedLoop_cons (k : Kernel) (it : Nat × TimedCmd) (rest : List (Nat × TimedCmd)) :
    (it.2.pid ≠ -1 ∧ ¬k.Waitable it.2.pid ∧ killTimedLoop k (it :: rest) = (k, it :: rest)) ∨
      ∃ m stays, Handles k it m stays ∧ killTimedLoop k (it :: rest) =
        ((killTimedLoop m rest).1, if stays then it :: (killTimedLoop m rest).2 else (killTimedLoop m rest).2) := by
  have others : ∀ pid, pid ≠ it.2.pid → (k.waitpid it.2.pid).2.table pid = k.table pid :=
    fun _ differs => waitpid_table differs
  have reaps := waitpid_reaps k it.2.pid
  have steady : Steady k (k.waitpid it.2.pid).2 := fun pid _ => waitpid_isStopped k it.2.pid pid
  rw [killTimedLoop]
  by_cases nobody : it.2.pid = -1
  · rw [if_pos nobody]
    exact Or.inr ⟨k, false, ⟨fun _ _ => rfl, Fades.refl k, fun _ _ => rfl, rfl, fun _ => ⟨rfl, rfl⟩, nofun,
      fun _ => Or.inl nobody⟩, rfl⟩
  · rw [if_neg nobody]
    have somebody : ∀ {m : Kernel} {stays : Bool}, it.2.pid = -1 → stays = false ∧ m = k :=
      fun absurdly => absurd absurdly nobody
    cases phase : k.phase it.2.pid with
    | absent =>
      rw [waitpid_gone (Or.inl phase)]
      exact Or.inl ⟨nobody, by simp [Kernel.Waitable, phase], rfl⟩
    | reaped =>
      rw [waitpid_gone (Or.inr phase)]
      exact Or.inl ⟨nobody, by simp [Kernel.Waitable, phase], rfl⟩
    | ended =>
      obtain ⟨ending, m, waits, same, _⟩ := waitpid_ended phase
      have ends : finished (.ended ending) = true := by cases ending <;> rfl
      rw [waits] at others reaps steady ⊢
      simp only [ends, if_true]
      have reaped : m.phase it.2.pid = .reaped := by
        rw [same, Function.update_self]
      exact Or.inr ⟨m, false, ⟨others, reaps.fades, steady, reaps.alarm, somebody, nofun,
        fun _ => Or.inr (Or.inl ⟨phase, reaped⟩)⟩, rfl⟩
    | alive =>
      obtain ⟨m, waits, same, now, _⟩ := waitpid_alive phase
      have lives : m.phase it.2.pid = .alive := by rw [same, phase]
      rw [waits] at others reaps steady ⊢
      cases news : k.news it.2.pid with
      | some change =>
        have continues : finished (.changed change) = false := by cases change <;> rfl
        simp only [Option.map_some, Option.getD_some, continues]
        exact Or.inr ⟨m, true, ⟨others, reaps.fades, steady, reaps.alarm, somebody,
          fun _ => ⟨phase, lives, Or.inl (by simp [news])⟩, nofun⟩, rfl⟩
      | none =>
        simp only [Option.map_none, Option.getD_none]
        by_cases due : it.2.timeToAlarm ≤ m.now - it.2.startTime
        · rw [if_pos due]
          obtain ⟨l, kills, _⟩ := kill_alive SIGKILL lives
          obtain ⟨fades, alarm⟩ := kill_fades kills
          rw [kills]
          have killed := kill_table_self kills lives
          refine Or.inr ⟨l, false, ⟨?_, reaps.fades.trans fades, steady.trans ?_ fades, alarm.trans reaps.alarm,
            somebody, nofun, fun _ => ?_⟩, rfl⟩
          · exact fun pid differs => (kill_table kills differs).trans (others pid differs)
          · intro pid alive
            by_cases here : pid = it.2.pid
            · unfold Kernel.phase at alive
              rw [here, killed] at alive
              exact absurd alive (by simp [Process.phase])
            · exact isStopped_congr (kill_table kills here)
          · exact Or.inr (Or.inr ⟨phase, news, now ▸ due, killed⟩)
        · rw [if_neg due]
          rw [now] at due
          exact Or.inr ⟨m, true, ⟨others, reaps.fades, steady, reaps.alarm, somebody,
            fun _ => ⟨phase, lives, Or.inr (Int.not_le.mp due)⟩, nofun⟩, rfl⟩

/-- The loop of `killTimedCmmands` ends and reaps processes and keeps entries in
their order. -/
theorem killTimedLoop_fades (k : Kernel) (timed : List (Nat × TimedCmd)) :
    Fades k (killTimedLoop k timed).1 ∧ (killTimedLoop k timed).1.alarm = k.alarm ∧
      (killTimedLoop k timed).2.Sublist timed := by
  induction timed generalizing k with
  | nil => exact ⟨Fades.refl k, rfl, List.Sublist.refl _⟩
  | cons it rest inductionHypothesis =>
    rcases killTimedLoop_cons k it rest with ⟨_, _, stops⟩ | ⟨m, stays, handles, continues⟩
    · rw [stops]
      exact ⟨Fades.refl k, rfl, List.Sublist.refl _⟩
    · rw [continues]
      obtain ⟨fades, alarm, sublist⟩ := inductionHypothesis m
      refine ⟨handles.fades.trans fades, alarm.trans handles.alarm, ?_⟩
      cases stays with
      | true => exact sublist.cons_cons it
      | false => exact sublist.cons it

theorem killTimedLoop_steady (k : Kernel) (timed : List (Nat × TimedCmd)) :
    Steady k (killTimedLoop k timed).1 := by
  induction timed generalizing k with
  | nil => exact fun _ _ => rfl
  | cons it rest inductionHypothesis =>
    rcases killTimedLoop_cons k it rest with ⟨_, _, stops⟩ | ⟨m, stays, handles, continues⟩
    · rw [stops]
      exact fun _ _ => rfl
    · rw [continues]
      exact handles.steady.trans (inductionHypothesis m) (killTimedLoop_fades m rest).1

@[simp] theorem pushTimed_jobsVec (s : Shell) : (pushTimed s).2.jobsVec = s.jobsVec := by
  unfold pushTimed
  split <;> rfl

@[simp] theorem pushTimed_kernel (s : Shell) : (pushTimed s).2.kernel = s.kernel := by
  unfold pushTimed
  split <;> rfl

@[simp] theorem pushTimed_mode (s : Shell) : (pushTimed s).2.mode = s.mode := by
  unfold pushTimed
  split <;> rfl

@[simp] theorem pushTimed_foregroundCmd (s : Shell) : (pushTimed s).2.foregroundCmd = s.foregroundCmd := by
  unfold pushTimed
  split <;> rfl

@[simp] theorem pushTimed_foregroundJobid (s : Shell) :
    (pushTimed s).2.foregroundJobid = s.foregroundJobid := by
  unfold pushTimed
  split <;> rfl

/-- What `moveToBackground` makes of the jobs: those that are kept, and the new
one behind them. -/
structure Adds (s : Shell) (cmd : ForegroundCmd) (isStopped : Bool) (t : Shell) (rest : List JobEntry)
    (jobId : Int) : Prop where
  prunes : Prunes s.kernel s.jobsVec t.kernel rest
  jobs : t.jobsVec = rest ++ [⟨jobId, cmd.childPid, t.kernel.now, cmd.cmdLine, isStopped⟩]
  number : jobId = if s.foregroundJobid = -1 then getMaxJobID rest + 1 else s.foregroundJobid
  mode : t.mode = s.mode
  foregroundCmd : t.foregroundCmd = s.foregroundCmd
  foregroundJobid : t.foregroundJobid = s.foregroundJobid

theorem moveToBackground_adds (cmd : ForegroundCmd) (isStopped : Bool) (s : Shell) :
    ∃ jobId, Adds s cmd isStopped (moveToBackground cmd isStopped s) (removeFinishedJobs s).jobsVec jobId := by
  refine ⟨_, ?_, ?_, rfl, ?_, ?_, ?_⟩
  · unfold moveToBackground
    rw [pushTimed_kernel]
    exact removeFinishedJobs_prunes s
  · unfold moveToBackground
    rw [pushTimed_jobsVec, pushTimed_kernel]
    rfl
  · unfold moveToBackground
    rw [pushTimed_mode]
    rfl
  · unfold moveToBackground
    rw [pushTimed_foregroundCmd]
    rfl
  · unfold moveToBackground
    rw [pushTimed_foregroundJobid]
    rfl

@[simp] theorem moveToBackground_kernel (cmd : ForegroundCmd) (isStopped : Bool) (s : Shell) :
    (moveToBackground cmd isStopped s).kernel = (removeFinishedJobs s).kernel := pushTimed_kernel _

/-- The shell after a successful `fork`. -/
def forked (pid : Int) (s : Shell) : Shell :=
  { s with
    kernel := s.kernel.set pid (.running none)
    timeThis := if s.timeThis.timeThis
      then { s.timeThis with pid := pid, startTime := s.kernel.now } else s.timeThis }

/-- The shell in the loop of `ExternalCommand::execute`. -/
def awaiting (pid : Int) (cmdLine : String) (s : Shell) : Shell :=
  { (pushTimed s).2 with foregroundCmd := some ⟨pid, cmdLine⟩, mode := .external (pushTimed s).1 }

/-- An external command: `fork` fails, or there is a new job, or the shell waits
for the child. -/
theorem executeExternal_cases {cmdLine : String} {isInBg : Bool} {fork : Option Int}
    (run : executeExternal cmdLine isInBg fork s = .ok t) :
    t = s ∨ ∃ pid, 0 < pid ∧ s.kernel.table pid = none ∧
      ((isInBg = true ∧ t = moveToBackground ⟨pid, cmdLine⟩ false (forked pid s)) ∨
        (isInBg = false ∧ t = awaiting pid cmdLine (forked pid s))) := by
  unfold executeExternal at run
  cases fork with
  | none => exact Or.inl (Except.ok.inj run).symm
  | some pid =>
    simp only at run
    split at run
    · next enabled =>
      right
      refine ⟨pid, enabled.1, enabled.2, ?_⟩
      cases isInBg with
      | true => exact Or.inl ⟨rfl, (Except.ok.inj run).symm⟩
      | false => exact Or.inr ⟨rfl, (Except.ok.inj run).symm⟩
    · exact absurd run (by simp)

/-- The new child is the only change of phase. -/
theorem forked_phase (pid : Int) (s : Shell) :
    (forked pid s).kernel.phase = Function.update s.kernel.phase pid .alive :=
  phase_set s.kernel pid (.running none)

/-- A job was sent a signal, and possibly marked. -/
structure Signals (s : Shell) (job : JobEntry) (signal : Int) (l : Kernel) (jobs : List JobEntry) : Prop where
  member : job ∈ s.jobsVec
  kills : s.kernel.kill job.pid signal = some l
  pids : pids jobs = pids s.jobsVec
  jobIds : jobIds jobs = jobIds s.jobsVec

/-- What the entry of a job says of its process after a signal from the shell. -/
def marked (signal : Int) (isStopped : Bool) : Bool :=
  if signal = SIGCONT then false else if signal = SIGSTOP then true else isStopped

/-- The job that was sent a signal, with its place in the list. -/
structure Marks (s : Shell) (job : JobEntry) (signal : Int) (l : Kernel) (front back : List JobEntry) : Prop where
  split : s.jobsVec = front ++ job :: back
  kills : s.kernel.kill job.pid signal = some l

theorem Marks.signals {signal : Int} {front back : List JobEntry} (marks : Marks s job signal l front back)
    (isStopped : Bool) : Signals s job signal l (front ++ { job with isStopped := isStopped } :: back) where
  member := by simp [marks.split]
  kills := marks.kills
  pids := by simp [pids, marks.split]
  jobIds := by simp [jobIds, marks.split]

/-- `kill`: there is no such job or process, or the job is sent the signal and
marked by it. -/
theorem executeKill_marks (signal jobId : Int) (s : Shell) : executeKill signal jobId s = s ∨
    ∃ job l front back, Marks s job signal l front back ∧ executeKill signal jobId s = { s with
      kernel := l
      jobsVec := front ++ { job with isStopped := marked signal job.isStopped } :: back } := by
  unfold executeKill
  split
  · exact Or.inl rfl
  · split
    · exact Or.inl rfl
    · next i job found =>
      obtain ⟨_, front, back, found⟩ := getJobById_found found
      split
      · exact Or.inl rfl
      · next l kills =>
        refine Or.inr ⟨job, l, front, back, ⟨found.split, kills⟩, ?_⟩
        unfold marked
        split
        · rw [found.split, found.position, markStopped_split]
        · split
          · rw [found.split, found.position, markStopped_split]
          · rw [← found.split]

theorem executeKill_cases (signal jobId : Int) (s : Shell) : executeKill signal jobId s = s ∨
    ∃ job l jobs, Signals s job signal l jobs ∧
      executeKill signal jobId s = { s with kernel := l, jobsVec := jobs } := by
  rcases executeKill_marks signal jobId s with same | ⟨job, l, front, back, marks, same⟩
  · exact Or.inl same
  · exact Or.inr ⟨job, l, _, marks.signals _, same⟩

theorem stoppedLessThan_orders (a b : JobEntry) : stoppedLessThan a b = true ↔
    a.jobId * (if a.isStopped then 1 else 0) < b.jobId * (if b.isStopped then 1 else 0) := by
  simp [stoppedLessThan]

/-- The job that `bg` is about is marked as stopped. -/
theorem bgJob_found {arg : Option Int} {i : Nat} (found : bgJob arg jobs = some (i, job)) :
    job.isStopped = true ∧ ∃ front back, jobs = front ++ job :: back ∧ i = front.length := by
  cases arg with
  | none =>
    obtain ⟨last, _⟩ := Option.filter_eq_some_iff.mp found
    obtain ⟨best, stopped⟩ := Option.filter_eq_some_iff.mp last
    obtain ⟨⟨front, back, split, position, _⟩, _⟩ := maxElement_found _ stoppedLessThan_orders best
    exact ⟨stopped, front, back, split, position⟩
  | some jobId =>
    obtain ⟨first, stopped⟩ := Option.filter_eq_some_iff.mp found
    obtain ⟨_, front, back, found⟩ := getJobById_found first
    exact ⟨stopped, front, back, found.split, found.position⟩

/-- `bg`: there is no such job or process, or it is sent `SIGCONT` and marked. -/
theorem executeBg_marks (arg : Option Int) (s : Shell) : executeBg arg s = s ∨
    ∃ job l front back, Marks s job SIGCONT l front back ∧ executeBg arg s = { s with
      kernel := l
      jobsVec := front ++ { job with isStopped := false } :: back } := by
  unfold executeBg
  split
  · exact Or.inl rfl
  · next i job found =>
    obtain ⟨_, front, back, split, position⟩ := bgJob_found found
    split
    · exact Or.inl rfl
    · next l kills =>
      refine Or.inr ⟨job, l, front, back, ⟨split, kills⟩, ?_⟩
      rw [split, position, markStopped_split]

theorem executeBg_cases (arg : Option Int) (s : Shell) : executeBg arg s = s ∨
    ∃ job l jobs, Signals s job SIGCONT l jobs ∧ executeBg arg s = { s with kernel := l, jobsVec := jobs } := by
  rcases executeBg_marks arg s with same | ⟨job, l, front, back, marks, same⟩
  · exact Or.inl same
  · exact Or.inr ⟨job, l, _, marks.signals _, same⟩

/-- `fg`: there is no such job or process, or it leaves the list, is continued when
it is marked as stopped, and the shell waits for it. -/
theorem executeFg_found (arg : Option Int) (s : Shell) : executeFg arg s = s ∨
    ∃ i job front back l, Found s.jobsVec i job front back ∧
      (if job.isStopped then s.kernel.kill job.pid SIGCONT = some l else l = s.kernel) ∧
      executeFg arg s = { s with
        foregroundCmd := some ⟨job.pid, job.cmdLine⟩
        foregroundJobid := job.jobId
        jobsVec := front ++ back
        mode := .foreground job
        kernel := l } := by
  unfold executeFg
  split
  · exact Or.inl rfl
  · next i job chosen =>
    obtain ⟨front, back, found⟩ := fgJob_found chosen
    split
    · next stopped =>
      split
      · exact Or.inl rfl
      · next l kills =>
        refine Or.inr ⟨i, job, front, back, l, found, (if_pos stopped).mpr kills, ?_⟩
        simp only [bringToForeground, found.removes]
    · next running =>
      refine Or.inr ⟨i, job, front, back, s.kernel, found, (if_neg running).mpr rfl, ?_⟩
      simp only [bringToForeground, found.removes]

/-- A job that `fg` takes off the list is waited for, and no phase changes. -/
theorem executeFg_cases (arg : Option Int) (s : Shell) : executeFg arg s = s ∨
    ∃ i job front back l, Found s.jobsVec i job front back ∧ l.phase = s.kernel.phase ∧
      l.now = s.kernel.now ∧ l.alarm = s.kernel.alarm ∧ executeFg arg s = { s with
        foregroundCmd := some ⟨job.pid, job.cmdLine⟩
        foregroundJobid := job.jobId
        jobsVec := front ++ back
        mode := .foreground job
        kernel := l } := by
  rcases executeFg_found arg s with same | ⟨i, job, front, back, l, found, kernel, same⟩
  · exact Or.inl same
  · have phase : l.phase = s.kernel.phase ∧ l.now = s.kernel.now ∧ l.alarm = s.kernel.alarm := by
      split at kernel
      · exact kill_phase (by decide) kernel
      · rw [kernel]
        exact ⟨rfl, rfl, rfl⟩
    exact Or.inr ⟨i, job, front, back, l, found, phase.1, phase.2.1, phase.2.2, same⟩

/-- A command line runs built-in and external commands with `removeFinishedJobs`
and timeouts before them. What these preserve and what the commands establish
from it, the command line establishes. -/
theorem executeCommand_rule {I J : Shell → Prop} {command : Command} {fork : Option Int}
    (prunes : ∀ s, I s → I (removeFinishedJobs s))
    (sets : ∀ s duration cmdLine, I s → I (setTimeout duration cmdLine s))
    (done : ∀ s, I s → J s)
    (external : ∀ s t cmdLine isInBg, I s → executeExternal cmdLine isInBg fork s = .ok t → J t)
    (jobs : ∀ s, I s → J (printJobsList s))
    (kill : ∀ s signal jobId, I s → J (executeKill signal jobId s))
    (fg : ∀ s arg, I s → J (executeFg arg s))
    (bg : ∀ s arg, I s → J (executeBg arg s))
    (pipe : ∀ s left right, I s → J (executePipe left right s))
    (first : I s) (run : executeCommand command fork s = .ok t) : J t := by
  have executes : ∀ command s, I s → execute fork command s = .ok t → J t := by
    intro command
    induction command with
    | external cmdLine isInBg => exact fun s holds run => external s t cmdLine isInBg holds run
    | jobs => exact fun s holds run => Except.ok.inj run ▸ jobs s holds
    | kill signal jobId => exact fun s holds run => Except.ok.inj run ▸ kill s signal jobId holds
    | fg arg => exact fun s holds run => Except.ok.inj run ▸ fg s arg holds
    | bg arg => exact fun s holds run => Except.ok.inj run ▸ bg s arg holds
    | timeout duration cmdLine inner inductionHypothesis =>
      intro s holds run
      unfold execute at run
      split at run
      · exact Except.ok.inj run ▸ done s holds
      · exact inductionHypothesis _ (prunes _ (sets s duration cmdLine holds)) run
    | redirection inner inductionHypothesis =>
      exact fun s holds run => inductionHypothesis _ (prunes s holds) run
    | pipe left right => exact fun s holds run => Except.ok.inj run ▸ pipe s left right holds
    | quit => exact fun s holds run => absurd run (by simp [execute])
    | other => exact fun s holds run => Except.ok.inj run ▸ done s holds
  exact executes command _ (prunes s first) run

/-- The loop the shell is in ends although the child lives: it was stopped, or,
in the loop of `ExternalCommand::execute`, continued. -/
def Released (s : Shell) (cmd : ForegroundCmd) : Prop :=
  ∃ change, s.kernel.news cmd.childPid = some change ∧ (change = .stopped ∨ ∃ it, s.mode = .external it)

/-- A pass through a loop: the shell stays in it while the child lives, or is
back at its prompt. -/
theorem poll_cases (run : poll s = .ok t) : ∃ cmd, s.foregroundCmd = some cmd ∧
    t.jobsVec = s.jobsVec ∧ t.kernel = (s.kernel.waitpid cmd.childPid).2 ∧ t.timeThis = s.timeThis ∧
    ((t.mode = s.mode ∧ t.foregroundCmd = s.foregroundCmd ∧ t.foregroundJobid = s.foregroundJobid ∧
        t.timedCmds = s.timedCmds ∧ s.kernel.phase cmd.childPid = .alive ∧ ¬Released s cmd) ∨
      (t.mode = .prompt ∧ t.foregroundCmd = none ∧ t.foregroundJobid = -1 ∧
        (s.kernel.phase cmd.childPid = .alive → Released s cmd) ∧
        (t.timedCmds = s.timedCmds ∨ s.kernel.phase cmd.childPid = .ended ∧
          ∃ it, s.mode = .external it ∧ t.timedCmds = (resetTimedCmd it s).timedCmds))) := by
  unfold poll at run
  split at run
  · next it cmd isExternal waited =>
    refine ⟨cmd, waited, ?_⟩
    cases phase : s.kernel.phase cmd.childPid with
    | absent =>
      rw [waitpid_gone (Or.inl phase)] at run ⊢
      obtain rfl := Except.ok.inj run
      exact ⟨rfl, rfl, rfl, Or.inr ⟨rfl, rfl, rfl, by simp, Or.inl rfl⟩⟩
    | reaped =>
      rw [waitpid_gone (Or.inr phase)] at run ⊢
      obtain rfl := Except.ok.inj run
      exact ⟨rfl, rfl, rfl, Or.inr ⟨rfl, rfl, rfl, by simp, Or.inl rfl⟩⟩
    | alive =>
      obtain ⟨l, waits, _⟩ := waitpid_alive phase
      rw [waits] at run ⊢
      cases news : s.kernel.news cmd.childPid with
      | none =>
        rw [news] at run
        obtain rfl := Except.ok.inj run
        exact ⟨rfl, rfl, rfl, Or.inl ⟨rfl, rfl, rfl, rfl, rfl, by simp [Released, news]⟩⟩
      | some change =>
        rw [news] at run
        obtain rfl := Except.ok.inj run
        exact ⟨rfl, rfl, rfl, Or.inr ⟨rfl, rfl, rfl, fun _ => ⟨change, news, Or.inr ⟨it, isExternal⟩⟩,
          Or.inl rfl⟩⟩
    | ended =>
      obtain ⟨ending, l, waits, _⟩ := waitpid_ended phase
      rw [waits] at run ⊢
      simp only at run
      split at run
      · obtain rfl := Except.ok.inj run
        exact ⟨rfl, rfl, rfl, Or.inr ⟨rfl, rfl, rfl, by simp, Or.inr ⟨rfl, it, isExternal, rfl⟩⟩⟩
      · obtain rfl := Except.ok.inj run
        exact ⟨rfl, rfl, rfl, Or.inr ⟨rfl, rfl, rfl, by simp, Or.inl rfl⟩⟩
  · next former cmd isForeground waited =>
    refine ⟨cmd, waited, ?_⟩
    cases phase : s.kernel.phase cmd.childPid with
    | absent =>
      rw [waitpid_gone (Or.inl phase)] at run ⊢
      obtain rfl := Except.ok.inj run
      exact ⟨rfl, rfl, rfl, Or.inr ⟨rfl, rfl, rfl, by simp, Or.inl rfl⟩⟩
    | reaped =>
      rw [waitpid_gone (Or.inr phase)] at run ⊢
      obtain rfl := Except.ok.inj run
      exact ⟨rfl, rfl, rfl, Or.inr ⟨rfl, rfl, rfl, by simp, Or.inl rfl⟩⟩
    | alive =>
      obtain ⟨l, waits, _⟩ := waitpid_alive phase
      rw [waits] at run ⊢
      cases news : s.kernel.news cmd.childPid with
      | none =>
        rw [news] at run
        obtain rfl := Except.ok.inj run
        exact ⟨rfl, rfl, rfl, Or.inl ⟨rfl, rfl, rfl, rfl, rfl, by simp [Released, news]⟩⟩
      | some change =>
        rw [news] at run
        cases change with
        | stopped =>
          obtain rfl := Except.ok.inj run
          exact ⟨rfl, rfl, rfl, Or.inr ⟨rfl, rfl, rfl, fun _ => ⟨.stopped, news, Or.inl rfl⟩, Or.inl rfl⟩⟩
        | continued =>
          obtain rfl := Except.ok.inj run
          have stays : ¬Released s cmd := by
            simp [Released, news, isForeground]
          exact ⟨rfl, rfl, rfl, Or.inl ⟨rfl, rfl, rfl, rfl, rfl, stays⟩⟩
    | ended =>
      obtain ⟨ending, l, waits, _⟩ := waitpid_ended phase
      rw [waits] at run ⊢
      cases ending with
      | exited =>
        obtain rfl := Except.ok.inj run
        exact ⟨rfl, rfl, rfl, Or.inr ⟨rfl, rfl, rfl, by simp, Or.inl rfl⟩⟩
      | signaled signal =>
        obtain rfl := Except.ok.inj run
        exact ⟨rfl, rfl, rfl, Or.inr ⟨rfl, rfl, rfl, by simp, Or.inl rfl⟩⟩
  · exact absurd run (by simp)

/-- A call of `waitpid` of a pipe ends: the shell is in front of the next one or at its
prompt, and has reaped a child that had ended, if any. -/
theorem waitPipe_cases {reaped : Option Int} (run : waitPipe reaped s = .ok t) :
    ∃ forked behind l, s.mode = .piping forked behind ∧ t = leaveWait behind { s with kernel := l } ∧
      Reaps s.kernel l ∧ (∀ other, s.kernel.Waitable other → some other ≠ reaped → l.Waitable other) ∧
      ∀ other, l.isStopped other = s.kernel.isStopped other := by
  unfold waitPipe at run
  split at run
  · next forked behind waits =>
    exact ⟨forked, behind, s.kernel, waits, (Except.ok.inj run).symm, Reaps.refl _,
      fun _ waitable _ => waitable, fun _ => rfl⟩
  · next forked behind pid waits =>
    split at run
    · refine ⟨forked, behind, _, waits, (Except.ok.inj run).symm, waitpid_reaps _ _, ?_,
        waitpid_isStopped _ _⟩
      intro other waitable spared
      refine waitable.of_phase (waitpid_phase_other (Or.inl ?_))
      rintro rfl
      exact spared rfl
    · exact absurd run (by simp)
  · exact absurd run (by simp)

@[simp] theorem leaveWait_jobsVec (behind : List Bool) (s : Shell) :
    (leaveWait behind s).jobsVec = s.jobsVec := by
  cases behind <;> rfl

@[simp] theorem leaveWait_kernel (behind : List Bool) (s : Shell) :
    (leaveWait behind s).kernel = s.kernel := by
  cases behind <;> rfl

@[simp] theorem leaveWait_timedCmds (behind : List Bool) (s : Shell) :
    (leaveWait behind s).timedCmds = s.timedCmds := by
  cases behind <;> rfl

@[simp] theorem leaveWait_nodes (behind : List Bool) (s : Shell) :
    (leaveWait behind s).nodes = s.nodes := by
  cases behind <;> rfl

@[simp] theorem leaveWait_timeThis (behind : List Bool) (s : Shell) :
    (leaveWait behind s).timeThis = s.timeThis := by
  cases behind <;> rfl

@[simp] theorem leaveWait_foregroundCmd (behind : List Bool) (s : Shell) :
    (leaveWait behind s).foregroundCmd = s.foregroundCmd := by
  cases behind <;> rfl

@[simp] theorem leaveWait_foregroundJobid (behind : List Bool) (s : Shell) :
    (leaveWait behind s).foregroundJobid = s.foregroundJobid := by
  cases behind <;> rfl

/-- The shell then waits for no job in the foreground. -/
theorem leaveWait_mode (behind : List Bool) (former : JobEntry) :
    (leaveWait behind s).mode ≠ .foreground former := by
  cases behind <;> exact Mode.noConfusion

/-- `ctrlZHandler`: there is nothing to stop, or the process was sent `SIGSTOP`
and is added to the jobs. -/
theorem ctrlZ_cases (s : Shell) :
    (ctrlZHandler s = s ∧ ∀ cmd, s.foregroundCmd = some cmd →
      s.kernel.phase cmd.childPid = .absent ∨ s.kernel.phase cmd.childPid = .reaped) ∨
    ∃ cmd l jobId, s.foregroundCmd = some cmd ∧ l.phase = s.kernel.phase ∧ l.now = s.kernel.now ∧
      l.alarm = s.kernel.alarm ∧ l.Waitable cmd.childPid ∧
      ctrlZHandler s = moveToBackground cmd true { s with kernel := l } ∧
      Adds { s with kernel := l } cmd true (ctrlZHandler s)
        (removeFinishedJobs { s with kernel := l }).jobsVec jobId := by
  cases waited : s.foregroundCmd with
  | none =>
    left
    unfold ctrlZHandler
    rw [waited]
    exact ⟨rfl, fun cmd absurdly => absurd absurdly (by simp)⟩
  | some cmd =>
    cases kills : s.kernel.kill cmd.childPid SIGSTOP with
    | none =>
      left
      constructor
      · unfold ctrlZHandler
        rw [waited]
        simp only [kills]
      · rintro other same
        obtain rfl := Option.some.inj same
        cases phase : s.kernel.phase cmd.childPid with
        | absent => exact Or.inl rfl
        | reaped => exact Or.inr rfl
        | alive =>
          obtain ⟨l, killed, _⟩ := kill_alive SIGSTOP phase
          exact absurd (kills.symm.trans killed) (by simp)
        | ended =>
          obtain ⟨l, killed, _⟩ := kill_ended SIGSTOP phase
          exact absurd (kills.symm.trans killed) (by simp)
    | some l =>
      right
      obtain ⟨phase, now, alarm⟩ := kill_phase (by decide) kills
      obtain ⟨jobId, adds⟩ := moveToBackground_adds cmd true { s with kernel := l }
      have same : ctrlZHandler s = moveToBackground cmd true { s with kernel := l } := by
        unfold ctrlZHandler
        rw [waited]
        simp only [kills]
      rw [← same] at adds
      refine ⟨cmd, l, jobId, rfl, phase, now, alarm, ?_, waited ▸ same, waited ▸ adds⟩
      unfold Kernel.Waitable
      rw [phase]
      cases here : s.kernel.phase cmd.childPid with
      | absent =>
        rw [kill_gone (Or.inl here)] at kills
        exact absurd kills (by simp)
      | reaped =>
        rw [kill_gone (Or.inr here)] at kills
        exact absurd kills (by simp)
      | alive => exact Or.inl rfl
      | ended => exact Or.inr rfl

/-- `ctrlCHandler` changes no phase. -/
theorem ctrlC_cases (s : Shell) : ∃ l, ctrlCHandler s = { s with kernel := l } ∧
    l.phase = s.kernel.phase ∧ l.now = s.kernel.now ∧ l.alarm = s.kernel.alarm := by
  unfold ctrlCHandler
  split
  · exact ⟨s.kernel, rfl, rfl, rfl, rfl⟩
  · split
    · exact ⟨s.kernel, rfl, rfl, rfl, rfl⟩
    · next l kills => exact ⟨l, rfl, kill_phase (by decide) kills⟩

/-- A change is that of a living process, which may end by it. -/
theorem change_phase {status : Status} {process : Process}
    (changes : (k.table pid).bind (Process.change status) = some process) :
    k.phase pid = .alive ∧ (process.phase = .alive ∨ process.phase = .ended) := by
  obtain ⟨former, found, changed⟩ := Option.bind_eq_some_iff.mp changes
  have phase : k.phase pid = former.phase := by
    simp [Kernel.phase, found]
  rw [phase]
  unfold Process.change at changed
  split at changed
  all_goals cases changed
  all_goals simp [Process.phase]

/-- A command line is run at the prompt. -/
theorem command_run {command : Command} {fork : Option Int} (run : step (.command command fork) s = .ok t) :
    s.mode = .prompt ∧ executeCommand command fork s = .ok t := by
  simp only [step] at run
  split at run
  · next prompt => exact ⟨prompt, run⟩
  · exact absurd run (by simp)

/-- The handler runs when the alarm is due, which is then no longer pending. -/
theorem alarm_run (run : step .alarm s = .ok t) :
    (∃ due, s.kernel.alarm = some due ∧ due ≤ s.kernel.now) ∧
      t = killTimedCmmands { s with kernel := { s.kernel with alarm := none } } ∧
      Fades s.kernel t.kernel ∧ t.kernel.alarm = none ∧ t.timedCmds.Sublist s.timedCmds := by
  simp only [step] at run
  split at run
  · next due pending =>
    split at run
    · next isDue =>
      obtain rfl := Except.ok.inj run
      obtain ⟨fades, alarm, sublist⟩ := killTimedLoop_fades { s.kernel with alarm := none } s.timedCmds
      have before : Fades s.kernel { s.kernel with alarm := none } := Fades.same rfl rfl
      exact ⟨⟨due, pending, isDue⟩, rfl, before.trans fades, alarm, sublist⟩
    · exact absurd run (by simp)
  · exact absurd run (by simp)

/-- A change replaces the state of a living process. -/
theorem change_run {status : Status} (run : step (.change pid status) s = .ok t) : ∃ process,
    s.kernel.phase pid = .alive ∧ (process.phase = .alive ∨ process.phase = .ended) ∧
      t = { s with kernel := s.kernel.set pid process } ∧ Fades s.kernel t.kernel := by
  simp only [step] at run
  split at run
  · next process changes =>
    obtain rfl := Except.ok.inj run
    obtain ⟨lived, becomes⟩ := change_phase changes
    exact ⟨process, lived, becomes, rfl, Fades.update lived becomes (phase_set s.kernel pid process) rfl⟩
  · exact absurd run (by simp)

/-- The foreground command and job number fit where the shell is. -/
def Attends (s : Shell) : Prop :=
  match s.mode with
  | .prompt | .piping _ _ => s.foregroundCmd = none ∧ s.foregroundJobid = -1
  | .external _ => (∃ cmd, s.foregroundCmd = some cmd) ∧ s.foregroundJobid = -1
  | .foreground former =>
    s.foregroundCmd = some ⟨former.pid, former.cmdLine⟩ ∧ s.foregroundJobid = former.jobId

namespace Attends

theorem frame (attends : Attends s) (mode : t.mode = s.mode)
    (foregroundCmd : t.foregroundCmd = s.foregroundCmd)
    (foregroundJobid : t.foregroundJobid = s.foregroundJobid) : Attends t := by
  unfold Attends at *
  rw [mode, foregroundCmd, foregroundJobid]
  exact attends

/-- At the prompt. -/
theorem atPrompt (attends : Attends s) (prompt : s.mode = .prompt) :
    s.foregroundCmd = none ∧ s.foregroundJobid = -1 := by
  unfold Attends at attends
  rwa [prompt] at attends

/-- In the waits of a pipe. -/
theorem inPipe {forked : Bool} {behind : List Bool} (attends : Attends s)
    (waits : s.mode = .piping forked behind) : s.foregroundCmd = none ∧ s.foregroundJobid = -1 := by
  unfold Attends at attends
  rwa [waits] at attends

theorem ofPrompt (prompt : t.mode = .prompt) (foregroundCmd : t.foregroundCmd = none)
    (foregroundJobid : t.foregroundJobid = -1) : Attends t := by
  unfold Attends
  rw [prompt]
  exact ⟨foregroundCmd, foregroundJobid⟩

/-- A child is waited for only in a loop, which then goes on or ends. -/
theorem polls (attends : Attends s) (waited : s.foregroundCmd = some cmd) : ∃ t, poll s = .ok t := by
  unfold poll
  cases mode : s.mode with
  | prompt => exact absurd waited (by simp [(attends.atPrompt mode).1])
  | piping forked behind => exact absurd waited (by simp [(attends.inPipe mode).1])
  | external it =>
    simp only [waited]
    split
    · exact ⟨_, rfl⟩
    · exact ⟨_, rfl⟩
    · split
      · exact ⟨_, rfl⟩
      · exact ⟨_, rfl⟩
  | foreground former =>
    simp only [waited]
    split
    · exact ⟨_, rfl⟩
    · exact ⟨_, rfl⟩
    · split
      · exact ⟨_, rfl⟩
      · exact ⟨_, rfl⟩

/-- A command leads to a loop or back to the prompt. -/
theorem command {command : Command} {fork : Option Int} (attends : Attends s) (prompt : s.mode = .prompt)
    (run : executeCommand command fork s = .ok t) : Attends t := by
  refine executeCommand_rule (I := fun s => Attends s ∧ s.mode = .prompt) (J := Attends)
    ?_ ?_ ?_ ?_ ?_ ?_ ?_ ?_ ?_ ⟨attends, prompt⟩ run
  · exact fun s holds => ⟨holds.1.frame rfl rfl rfl, holds.2⟩
  · exact fun s _ _ holds => ⟨holds.1.frame rfl rfl rfl, holds.2⟩
  · exact fun s holds => holds.1
  · rintro s t cmdLine isInBg ⟨attends, prompt⟩ run
    obtain ⟨noCmd, noJob⟩ := attends.atPrompt prompt
    rcases executeExternal_cases run with rfl | ⟨pid, _, _, ⟨_, rfl⟩ | ⟨_, rfl⟩⟩
    · exact attends
    · obtain ⟨jobId, adds⟩ := moveToBackground_adds ⟨pid, cmdLine⟩ false (forked pid s)
      exact attends.frame adds.mode adds.foregroundCmd adds.foregroundJobid
    · refine ⟨⟨_, rfl⟩, ?_⟩
      simp only [awaiting, pushTimed_foregroundJobid]
      exact noJob
  · exact fun s holds => holds.1.frame rfl rfl rfl
  · rintro s signal jobId ⟨attends, _⟩
    rcases executeKill_cases signal jobId s with same | ⟨job, l, jobs, _, same⟩
    · rwa [same]
    · exact same ▸ attends.frame rfl rfl rfl
  · rintro s arg ⟨attends, _⟩
    rcases executeFg_cases arg s with same | ⟨i, job, front, back, l, _, _, _, _, same⟩
    · rwa [same]
    · exact same ▸ ⟨rfl, rfl⟩
  · rintro s arg ⟨attends, _⟩
    rcases executeBg_cases arg s with same | ⟨job, l, jobs, _, same⟩
    · rwa [same]
    · exact same ▸ attends.frame rfl rfl rfl
  · rintro s left right ⟨attends, prompt⟩
    exact attends.atPrompt prompt

/-- Every step keeps the foreground command fitting. -/
theorem step {action : Action} (attends : Attends s) (run : Smash.step action s = .ok t) : Attends t := by
  cases action with
  | command command fork =>
    obtain ⟨prompt, run⟩ := command_run run
    exact attends.command prompt run
  | poll =>
    obtain ⟨cmd, _, _, _, _, ⟨mode, foregroundCmd, foregroundJobid, _⟩ | ⟨prompt, noCmd, noJob, _⟩⟩ :=
      poll_cases run
    · exact attends.frame mode foregroundCmd foregroundJobid
    · exact ofPrompt prompt noCmd noJob
  | wait reaped =>
    obtain ⟨forked, behind, l, waits, rfl, _⟩ := waitPipe_cases run
    cases behind with
    | nil => exact attends.inPipe waits
    | cons forked behind => exact attends.inPipe waits
  | ctrlZ =>
    obtain rfl := Except.ok.inj run
    rcases ctrlZ_cases s with ⟨same, _⟩ | ⟨cmd, l, jobId, _, _, _, _, _, _, adds⟩
    · rwa [same]
    · exact attends.frame adds.mode adds.foregroundCmd adds.foregroundJobid
  | ctrlC =>
    obtain rfl := Except.ok.inj run
    obtain ⟨l, same, _⟩ := ctrlC_cases s
    exact same ▸ attends.frame rfl rfl rfl
  | alarm =>
    obtain ⟨_, rfl, _⟩ := alarm_run run
    exact attends.frame rfl rfl rfl
  | change pid status =>
    obtain ⟨process, _, _, rfl, _⟩ := change_run run
    exact attends.frame rfl rfl rfl
  | tick => exact Except.ok.inj run ▸ attends.frame rfl rfl rfl

end Attends

theorem start_attends (now : Int) : Attends (start now) := ⟨rfl, rfl⟩

/-- The shell performs actions from its start. -/
def smash (now : Int) (actions : List Action) : Except Stop Shell :=
  Runs.execute step actions (start now)

end OperatingSystems.Smash
