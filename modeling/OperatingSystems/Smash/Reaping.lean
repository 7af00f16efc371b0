import OperatingSystems.Smash.Timers
import OperatingSystems.Smash.Uniqueness

/-!
# Which loop reaps a child

`removeFinishedJobs` is exact as long as it alone reaps the processes on the
list: it stops at the first process that another loop has reaped. The loops that
wait in the foreground and the handler of the alarm reap too, and know nothing of
the jobs.
-/

namespace OperatingSystems.Smash

open Runs

variable {s t : Shell} {k l m : Kernel} {jobs : List JobEntry} {timed : List (Nat × TimedCmd)} {pid : Int}

/-- A call of `removeFinishedJobs` keeps exactly the jobs that live, in order. -/
def ReapsExactly (s : Shell) : Prop :=
  (removeFinishedJobs s).jobsVec = s.jobsVec.filter fun job => s.kernel.phase job.pid = .alive

/-- The shells in which a command calls `removeFinishedJobs`. -/
def commandCalls (fork : Option Int) : Command → Shell → List Shell
  | .external _ isInBg, s =>
    match fork with
    | none => []
    | some pid => if isInBg ∧ 0 < pid ∧ s.kernel.table pid = none then [forked pid s] else []
  | .jobs, s => [s]
  | .timeout duration cmdLine inner, s =>
    if duration < 0 then []
    else
      setTimeout duration cmdLine s ::
        commandCalls fork inner (removeFinishedJobs (setTimeout duration cmdLine s))
  | .redirection inner, s => s :: commandCalls fork inner (removeFinishedJobs s)
  | _, _ => []

/-- The shells in which a step calls `removeFinishedJobs`. -/
def calls : Action → Shell → List Shell
  | .command command fork, s =>
    if s.mode = .prompt then s :: commandCalls fork command (removeFinishedJobs s) else []
  | .ctrlZ, s =>
    match s.foregroundCmd with
    | none => []
    | some cmd =>
      match s.kernel.kill cmd.childPid SIGSTOP with
      | none => []
      | some kernel => [{ s with kernel := kernel }]
  | _, _ => []

/-- Whatever comes next, its calls of `removeFinishedJobs` are exact, as is one
made now. -/
def Exact (s : Shell) : Prop := ReapsExactly s ∧ ∀ action, ∀ call ∈ calls action s, ReapsExactly call

/-- The timed commands that `killTimedCmmands` comes to before the first one whose
process was reaped. -/
def reached (k : Kernel) (timed : List (Nat × TimedCmd)) : List (Nat × TimedCmd) :=
  timed.takeWhile fun e => e.2.pid = -1 ∨ k.Waitable e.2.pid

/-- Neither a loop nor the handler of the alarm comes to a process that has ended
and is on the list, Ctrl-Z is not delivered while the process in the foreground
is, and a pipe whose `fork` has failed reaps none that is. -/
def Spares : Action → Shell → Prop
  | .poll, s => ∀ cmd ∈ s.foregroundCmd, s.kernel.phase cmd.childPid = .ended →
      cmd.childPid ∉ pids s.jobsVec
  | .ctrlZ, s => ∀ cmd ∈ s.foregroundCmd, s.kernel.Waitable cmd.childPid →
      cmd.childPid ∉ pids s.jobsVec
  | .alarm, s => ∀ e ∈ reached s.kernel s.timedCmds, s.kernel.phase e.2.pid = .ended →
      e.2.pid ∉ pids s.jobsVec
  | .wait reaped, s => ∀ pid ∈ reaped, pid ∉ pids s.jobsVec
  | _, _ => True

instance (action : Action) (s : Shell) : Decidable (Spares action s) := by
  unfold Spares
  split
  all_goals infer_instance

/-- When no process is listed twice and none was reaped, the loop of
`removeFinishedJobs` keeps those that live. -/
theorem removeFinishedLoop_exact (waiting : ∀ pid ∈ pids jobs, k.Waitable pid) (distinct : (pids jobs).Nodup) :
    (removeFinishedLoop k jobs).2 = jobs.filter fun job => k.phase job.pid = .alive := by
  induction jobs generalizing k with
  | nil => rfl
  | cons job rest inductionHypothesis =>
    rw [pids, List.map_cons, List.nodup_cons] at distinct
    rw [pids, List.map_cons, List.forall_mem_cons] at waiting
    obtain ⟨new, distinct⟩ := distinct
    obtain ⟨here, behind⟩ := waiting
    have untouched : ∀ pid ∈ rest.map JobEntry.pid,
        (k.waitpid job.pid).2.phase pid = k.phase pid := by
      intro pid listed
      apply waitpid_phase_other
      exact Or.inl fun same => new (same ▸ listed)
    have after : (removeFinishedLoop (k.waitpid job.pid).2 rest).2 =
        rest.filter fun e => k.phase e.pid = .alive := by
      rw [inductionHypothesis (fun pid listed => (behind pid listed).of_phase (untouched pid listed)) distinct]
      apply List.filter_congr
      intro e member
      rw [untouched e.pid (List.mem_map_of_mem member)]
    rw [List.filter_cons]
    unfold removeFinishedLoop
    rcases here with alive | ended
    · obtain ⟨m, waits, _⟩ := waitpid_alive alive
      rw [waits] at after ⊢
      cases news : k.news job.pid with
      | none => simp only [Option.map_none, Option.getD_none, after, alive, decide_true, if_true]
      | some change =>
        have goesOn : finished (.changed change) = false := by cases change <;> rfl
        simp only [Option.map_some, Option.getD_some, goesOn, Bool.false_eq_true, if_false, after, alive,
          decide_true, if_true]
    · obtain ⟨ending, m, waits, _⟩ := waitpid_ended ended
      have ends : finished (.ended ending) = true := by cases ending <;> rfl
      rw [waits] at after ⊢
      simp only [ends, if_true, after, ended]
      rfl

/-- What the handler comes to depends on the phases of the timed commands. -/
theorem reached_congr (same : ∀ e ∈ timed, l.phase e.2.pid = k.phase e.2.pid) :
    reached l timed = reached k timed := by
  induction timed with
  | nil => rfl
  | cons e rest inductionHypothesis =>
    rw [List.forall_mem_cons] at same
    have here : l.Waitable e.2.pid ↔ k.Waitable e.2.pid := by
      unfold Kernel.Waitable
      rw [same.1]
    have behind := inductionHypothesis same.2
    unfold reached at behind ⊢
    rw [List.takeWhile_cons, List.takeWhile_cons, behind]
    simp only [here]

/-- The loop that handles an entry comes to it, and then to those that it comes to
behind it. -/
theorem Handles.reached {it : Nat × TimedCmd} {stays : Bool} (handles : Handles k it m stays)
    (distinct : (timedPids (it :: timed)).Nodup) :
    Smash.reached k (it :: timed) = it :: Smash.reached m timed := by
  have behind : Smash.reached m timed = Smash.reached k timed :=
    reached_congr fun e member => phase_congr (handles.apart distinct member)
  have here : it.2.pid = -1 ∨ k.Waitable it.2.pid := by
    cases stays with
    | true => exact Or.inr (Or.inl (handles.spared rfl).1)
    | false =>
      rcases handles.gone rfl with nobody | ⟨ended, _⟩ | ⟨alive, _⟩
      · exact Or.inl nobody
      · exact Or.inr (Or.inr ended)
      · exact Or.inr (Or.inl alive)
  rw [behind]
  simp [Smash.reached, here]

/-- A process to be waited for is so afterwards unless the loop finds that it has
ended. -/
theorem Handles.waitable {it : Nat × TimedCmd} {stays : Bool} (handles : Handles k it m stays)
    (waitable : k.Waitable pid) (spared : k.phase it.2.pid = .ended → it.2.pid ≠ pid) : m.Waitable pid := by
  by_cases here : pid = it.2.pid
  · subst here
    cases stays with
    | true => exact Or.inl (handles.spared rfl).2.1
    | false =>
      rcases handles.gone rfl with nobody | ⟨ended, _⟩ | ⟨_, _, _, killed⟩
      · rwa [(handles.nobody nobody).2]
      · exact absurd rfl (spared ended)
      · right
        unfold Kernel.phase
        rw [killed]
        rfl
  · exact waitable.of_phase (phase_congr (handles.others pid here))

/-- `killTimedCmmands` leaves a process to be waited for unless it comes to its
entry after it has ended. -/
theorem killTimedLoop_waitable (distinct : (timedPids timed).Nodup) (waitable : k.Waitable pid)
    (spared : ∀ e ∈ reached k timed, k.phase e.2.pid = .ended → e.2.pid ≠ pid) :
    (killTimedLoop k timed).1.Waitable pid := by
  induction timed generalizing k with
  | nil => exact waitable
  | cons it rest inductionHypothesis =>
    rcases killTimedLoop_cons k it rest with ⟨_, _, stops⟩ | ⟨m, stays, handles, continues⟩
    · rw [stops]
      exact waitable
    · rw [continues]
      rw [handles.reached distinct, List.forall_mem_cons] at spared
      apply inductionHypothesis (timedPids_tail distinct) (handles.waitable waitable spared.1)
      intro e member ended
      have behind : e ∈ rest := (List.takeWhile_sublist _).subset member
      rw [phase_congr (handles.apart distinct behind)] at ended
      exact spared.2 e member ended

/-- Nothing on the list was reaped, and nothing is there twice. -/
structure Settled (s : Shell) : Prop where
  waiting : ∀ pid ∈ pids s.jobsVec, s.kernel.Waitable pid
  distinct : (pids s.jobsVec).Nodup

namespace Settled

theorem exactly (settled : Settled s) : ReapsExactly s :=
  removeFinishedLoop_exact settled.waiting settled.distinct

/-- Fewer jobs, and none of their processes was reaped. -/
theorem frame (settled : Settled s) (sublist : (pids t.jobsVec).Sublist (pids s.jobsVec))
    (waitable : ∀ pid ∈ pids t.jobsVec, s.kernel.Waitable pid → t.kernel.Waitable pid) : Settled t :=
  ⟨fun pid listed => waitable pid listed (settled.waiting pid (sublist.subset listed)),
    settled.distinct.sublist sublist⟩

/-- The list stays, and the processes on it are not reaped. -/
theorem keep (settled : Settled s) (jobsVec : t.jobsVec = s.jobsVec)
    (waitable : ∀ pid ∈ pids s.jobsVec, s.kernel.Waitable pid → t.kernel.Waitable pid) : Settled t :=
  settled.frame (jobsVec ▸ List.Sublist.refl _) (jobsVec ▸ waitable)

/-- The phases stay. -/
theorem samePhase (settled : Settled s) (jobsVec : t.jobsVec = s.jobsVec)
    (phase : t.kernel.phase = s.kernel.phase) : Settled t :=
  settled.keep jobsVec fun pid _ waitable => waitable.of_phase (congrFun phase pid)

theorem removeFinishedJobs (settled : Settled s) : Settled (removeFinishedJobs s) := by
  have prunes := removeFinishedJobs_prunes s
  apply settled.frame (prunes.sublist.map JobEntry.pid)
  intro pid listed _
  left
  -- After the call all jobs live.
  obtain ⟨job, member, rfl⟩ := List.mem_map.mp listed
  rw [settled.exactly, List.mem_filter] at member
  rw [prunes.reaps.alive]
  simpa using member.2

/-- A fresh process is not on the list. -/
theorem fresh (settled : Settled s) (fresh : s.kernel.table pid = none) : pid ∉ pids s.jobsVec := by
  intro listed
  have absent : s.kernel.phase pid = .absent := by
    simp [Kernel.phase, fresh]
  exact (waitable_iff.mp (settled.waiting pid listed)).1 absent

theorem forked (settled : Settled s) (fresh : s.kernel.table pid = none) : Settled (forked pid s) := by
  apply settled.keep (t := Smash.forked pid s) rfl
  intro other listed waitable
  apply waitable.of_phase
  rw [forked_phase, Function.update_of_ne]
  rintro rfl
  exact settled.fresh fresh listed

/-- A process that is not on the list joins it. -/
theorem moveToBackground {cmd : ForegroundCmd} {isStopped : Bool} (settled : Settled s)
    (here : s.kernel.Waitable cmd.childPid) (new : cmd.childPid ∉ pids s.jobsVec) :
    Settled (moveToBackground cmd isStopped s) := by
  obtain ⟨jobId, adds⟩ := moveToBackground_adds cmd isStopped s
  have after := settled.removeFinishedJobs
  constructor
  · intro pid listed
    rw [adds.jobs, pids, List.map_append, List.mem_append] at listed
    rw [moveToBackground_kernel]
    rcases listed with old | joined
    · exact after.waiting pid old
    · simp only [List.map_singleton, List.mem_singleton] at joined
      rw [joined]
      exact here.of_phase (removeFinishedLoop_others new)
  · rw [adds.jobs, pids, List.map_append, List.nodup_append]
    refine ⟨after.distinct, by simp, ?_⟩
    intro other listed pid same equal
    simp only [List.map_singleton, List.mem_singleton] at same
    rw [equal, same] at listed
    exact new ((adds.prunes.sublist.map JobEntry.pid).subset listed)

theorem external {cmdLine : String} {isInBg : Bool} {fork : Option Int} (settled : Settled s)
    (run : executeExternal cmdLine isInBg fork s = .ok t) : Settled t := by
  rcases executeExternal_cases run with rfl | ⟨child, _, fresh, ⟨_, rfl⟩ | ⟨_, rfl⟩⟩
  · exact settled
  · apply (settled.forked fresh).moveToBackground
    · left
      rw [forked_phase, Function.update_self]
    · exact settled.fresh fresh
  · apply (settled.forked fresh).samePhase
    · simp only [awaiting, pushTimed_jobsVec]
    · simp only [awaiting, pushTimed_kernel]

theorem signals {job : JobEntry} {signal : Int} (settled : Settled s) (signals : Signals s job signal l jobs) :
    Settled { s with kernel := l, jobsVec := jobs } :=
  settled.frame (signals.pids ▸ List.Sublist.refl _) fun _ _ => kill_waitable signals.kills

theorem command {command : Command} {fork : Option Int} (settled : Settled s)
    (run : executeCommand command fork s = .ok t) : Settled t := by
  refine executeCommand_rule (I := Settled) (J := Settled) ?_ ?_ ?_ ?_ ?_ ?_ ?_ ?_ ?_ settled run
  · exact fun s settled => settled.removeFinishedJobs
  · exact fun s _ _ settled => settled.samePhase rfl rfl
  · exact fun s settled => settled
  · exact fun s t _ _ settled run => settled.external run
  · intro s settled
    have after := settled.removeFinishedJobs
    have perm := (List.perm_insertionSort (fun a b : JobEntry => a.jobId ≤ b.jobId)
      (Smash.removeFinishedJobs s).jobsVec).map JobEntry.pid
    exact ⟨fun pid listed => after.waiting pid (perm.mem_iff.mp listed), perm.nodup_iff.mpr after.distinct⟩
  · intro s signal jobId settled
    rcases executeKill_cases signal jobId s with same | ⟨job, l, jobs, signals, same⟩
    · rwa [same]
    · exact same ▸ settled.signals signals
  · intro s arg settled
    rcases executeFg_cases arg s with same | ⟨i, job, front, back, l, found, phase, _, _, same⟩
    · rwa [same]
    · rw [same]
      apply settled.frame
      · rw [found.split]
        exact ((List.sublist_cons_self job back).append_left front).map JobEntry.pid
      · exact fun pid _ waitable => waitable.of_phase (congrFun phase pid)
  · intro s arg settled
    rcases executeBg_cases arg s with same | ⟨job, l, jobs, signals, same⟩
    · rwa [same]
    · exact same ▸ settled.signals signals
  · exact fun s left right settled => settled.samePhase (t := executePipe left right s) rfl rfl

/-- A step reaps no process on the list when it is to spare those. -/
theorem step {action : Action} (settled : Settled s) (timed : Timed s) (spares : Spares action s)
    (run : step action s = .ok t) : Settled t := by
  cases action with
  | command command fork => exact settled.command (command_run run).2
  | poll =>
    obtain ⟨cmd, waited, jobsVec, kernel, _⟩ := poll_cases run
    apply settled.keep jobsVec
    intro pid listed waitable
    apply waitable.of_phase
    rw [kernel]
    apply waitpid_phase_other
    by_cases ended : s.kernel.phase cmd.childPid = .ended
    · exact Or.inl fun same => spares cmd waited ended (same ▸ listed)
    · exact Or.inr ended
  | wait reaped =>
    obtain ⟨_, behind, l, _, rfl, _, others, _⟩ := waitPipe_cases run
    refine settled.keep (leaveWait_jobsVec _ _) fun pid listed waitable => ?_
    rw [leaveWait_kernel]
    exact others pid waitable fun same => spares pid same.symm listed
  | ctrlZ =>
    obtain rfl := Except.ok.inj run
    rcases ctrlZ_cases s with ⟨same, _⟩ | ⟨cmd, l, jobId, waited, phase, _, _, here, same, _⟩
    · rwa [same]
    · have after : Settled { s with kernel := l } := settled.samePhase rfl phase
      rw [same]
      exact after.moveToBackground here (spares cmd waited (here.of_phase (congrFun phase _).symm))
  | ctrlC =>
    obtain rfl := Except.ok.inj run
    obtain ⟨l, same, phase, _⟩ := ctrlC_cases s
    exact same ▸ settled.samePhase rfl phase
  | alarm =>
    obtain ⟨_, same, _⟩ := alarm_run run
    subst same
    refine settled.keep (t := killTimedCmmands _) rfl ?_
    intro pid listed waitable
    apply killTimedLoop_waitable (k := { s.kernel with alarm := none }) timed.distinct waitable
    exact fun e comes ended same => spares e comes ended (same ▸ listed)
  | change pid status =>
    obtain ⟨process, _, becomes, same, _⟩ := change_run run
    apply settled.keep (same ▸ rfl)
    intro other _ waitable
    subst same
    unfold Kernel.Waitable
    rw [phase_set]
    by_cases here : other = pid
    · rw [here, Function.update_self]
      exact becomes
    · rw [Function.update_of_ne here]
      exact waitable
  | tick => exact Except.ok.inj run ▸ settled.samePhase rfl rfl

/-- The calls that a command makes are exact. -/
theorem commandCalls {fork : Option Int} {command : Command} (settled : Settled s) :
    ∀ call ∈ commandCalls fork command s, ReapsExactly call := by
  induction command generalizing s with
  | external cmdLine isInBg =>
    intro call member
    unfold Smash.commandCalls at member
    split at member
    · exact absurd member List.not_mem_nil
    · split at member
      · next made =>
        rw [List.mem_singleton.mp member]
        exact (settled.forked made.2.2).exactly
      · exact absurd member List.not_mem_nil
  | jobs =>
    intro call member
    rw [List.mem_singleton.mp member]
    exact settled.exactly
  | timeout duration cmdLine inner inductionHypothesis =>
    have set : Settled (setTimeout duration cmdLine s) := settled.samePhase rfl rfl
    unfold Smash.commandCalls
    split
    · exact fun call member => absurd member List.not_mem_nil
    · exact List.forall_mem_cons.mpr ⟨set.exactly, inductionHypothesis set.removeFinishedJobs⟩
  | redirection inner inductionHypothesis =>
    exact List.forall_mem_cons.mpr ⟨settled.exactly, inductionHypothesis settled.removeFinishedJobs⟩
  | _ => exact fun call member => absurd member List.not_mem_nil

theorem calls (settled : Settled s) (action : Action) : ∀ call ∈ calls action s, ReapsExactly call := by
  intro call member
  unfold Smash.calls at member
  split at member
  · split at member
    · rcases List.mem_cons.mp member with rfl | inner
      · exact settled.exactly
      · exact settled.removeFinishedJobs.commandCalls call inner
    · exact absurd member List.not_mem_nil
  · split at member
    · exact absurd member List.not_mem_nil
    · split at member
      · exact absurd member List.not_mem_nil
      · next l kills =>
        rw [List.mem_singleton.mp member]
        have after : Settled { s with kernel := l } := settled.samePhase rfl (kill_phase (by decide) kills).1
        exact after.exactly
  · exact absurd member List.not_mem_nil

end Settled

theorem start_settled (now : Int) : Settled (start now) :=
  ⟨fun _ listed => absurd listed List.not_mem_nil, List.nodup_nil⟩

/-- As long as the loops, the handler of the alarm and the pipes spare the processes on the
list, every call of `removeFinishedJobs` in a run is exact. -/
theorem runs_reap (now : Int) (actions : List Action) (spares : Obeys step Spares actions (start now)) :
    Ends Exact (fun _ => True) (smash now actions) := by
  have ends : Ends (fun s => Settled s ∧ Timed s) (fun _ => True) (smash now actions) := by
    refine execute_ends ?_ ⟨start_settled now, start_timed now⟩ spares
    rintro action s ⟨settled, timed⟩ spares
    cases run : step action s with
    | ok t => exact ⟨settled.step timed spares run, timed.step run⟩
    | error stop => trivial
  cases run : smash now actions with
  | ok t =>
    rw [run] at ends
    exact ⟨ends.1.exactly, ends.1.calls⟩
  | error stop => trivial

/-- A timed command in the background exits, and the list is cleaned before the
alarm is due. -/
theorem runs_reap_sample : Ends Exact (fun _ => True) (smash 0
    [.command (.timeout 2 "timeout 2 true &" (.external "true &" true)) (some 100),
      .change 100 (.ended .exited), .command .jobs none, .tick, .tick, .alarm]) :=
  runs_reap 0 _ (by decide +kernel)

/-- The command exits, and the alarm finds it before the list is cleaned. -/
def reapedByAlarm : List Action :=
  [.command (.timeout 2 "timeout 2 true &" (.external "true &" true)) (some 100),
    .change 100 (.ended .exited), .tick, .tick, .alarm]

/-- The entry of the process stays on the list. -/
theorem run_keeps_ended : ¬∀ now actions, Ends Exact (fun _ => True) (smash now actions) := by
  intro all
  refine not_ends (fun s => decide ((removeFinishedJobs s).jobsVec =
    s.jobsVec.filter fun job => s.kernel.phase job.pid = .alive))
    (fun s exact_ => decide_eq_true exact_.1) ?_ (all 0 reapedByAlarm)
  decide +kernel

end OperatingSystems.Smash
