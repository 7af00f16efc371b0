import OperatingSystems.Smash.Steps

/-!
# Children that the shell keeps track of

A living child is on the list of jobs or waited for. When a loop ends because
the child was stopped or continued, only the handler of Ctrl-Z can have put it
on the list; a child stopped by another signal is then lost.
-/

namespace OperatingSystems.Smash

open Runs

variable {s t : Shell} {k l : Kernel} {jobs rest : List JobEntry} {cmd : ForegroundCmd} {pid : Int}

/-- Every living child is on the list or in the foreground. -/
def Tracked (s : Shell) : Prop :=
  ∀ pid, s.kernel.phase pid = .alive →
    pid ∈ pids s.jobsVec ∨ ∃ cmd, s.foregroundCmd = some cmd ∧ cmd.childPid = pid

/-- At the prompt every living child is on the list. -/
def Kept (s : Shell) : Prop :=
  s.mode = .prompt → ∀ pid, s.kernel.phase pid = .alive → pid ∈ pids s.jobsVec

/-- No pass through a loop releases a child that is not on the list. -/
def Watchful : Action → Shell → Prop
  | .poll, s => ∀ cmd, s.foregroundCmd = some cmd → s.kernel.phase cmd.childPid = .alive →
      Released s cmd → cmd.childPid ∈ pids s.jobsVec
  | _, _ => True

/-- A pass over the jobs keeps the living on the list. -/
theorem Prunes.keeps (prunes : Prunes k jobs l rest) (listed : pid ∈ pids jobs)
    (alive : k.phase pid = .alive) : pid ∈ pids rest := by
  obtain ⟨job, member, rfl⟩ := List.mem_map.mp listed
  exact List.mem_map_of_mem (prunes.living job member alive)

namespace Tracked

theorem kept (tracked : Tracked s) (attends : Attends s) : Kept s := by
  intro prompt pid alive
  rcases tracked pid alive with listed | ⟨cmd, waited, _⟩
  · exact listed
  · rw [(attends.atPrompt prompt).1] at waited
    exact absurd waited (by simp)

/-- As long as nobody comes to life, the living must stay on the list. -/
theorem frame (tracked : Tracked s) (alive : ∀ pid, t.kernel.phase pid = .alive → s.kernel.phase pid = .alive)
    (listed : ∀ pid ∈ pids s.jobsVec, s.kernel.phase pid = .alive → pid ∈ pids t.jobsVec)
    (foregroundCmd : t.foregroundCmd = s.foregroundCmd) : Tracked t := by
  intro pid lives
  rw [foregroundCmd]
  rcases tracked pid (alive pid lives) with member | waited
  · exact Or.inl (listed pid member (alive pid lives))
  · exact Or.inr waited

/-- What happens to the processes alone loses nobody. -/
theorem fades (tracked : Tracked s) (fades : Fades s.kernel t.kernel) (jobsVec : t.jobsVec = s.jobsVec)
    (foregroundCmd : t.foregroundCmd = s.foregroundCmd) : Tracked t :=
  tracked.frame fades.alive (fun _ listed _ => jobsVec ▸ listed) foregroundCmd

theorem removeFinishedJobs (tracked : Tracked s) : Tracked (removeFinishedJobs s) := by
  have prunes := removeFinishedJobs_prunes s
  exact tracked.frame (fun _ => prunes.reaps.alive.mp) (fun _ listed alive => prunes.keeps listed alive) rfl

/-- A job that is added joins those on the list. -/
theorem adds {isStopped : Bool} {jobId : Int} (tracked : Tracked s) (adds : Adds s cmd isStopped t rest jobId) :
    Tracked t := by
  apply tracked.frame (fun _ => adds.prunes.reaps.alive.mp) _ adds.foregroundCmd
  intro pid listed alive
  rw [adds.jobs, pids, List.map_append]
  exact List.mem_append_left _ (adds.prunes.keeps listed alive)

/-- A new child is on the list or in the foreground. -/
theorem external {cmdLine : String} {isInBg : Bool} {fork : Option Int} (tracked : Tracked s)
    (noCmd : s.foregroundCmd = none) (run : executeExternal cmdLine isInBg fork s = .ok t) : Tracked t := by
  -- The others are on the list, as there is nobody in the foreground.
  have others : ∀ child other, (forked child s).kernel.phase other = .alive →
      other = child ∨ (other ∈ pids s.jobsVec) := by
    intro child other alive
    rw [forked_phase] at alive
    by_cases here : other = child
    · exact Or.inl here
    · rw [Function.update_of_ne here] at alive
      rcases tracked other alive with listed | ⟨cmd, waited, _⟩
      · exact Or.inr listed
      · rw [noCmd] at waited
        exact absurd waited (by simp)
  rcases executeExternal_cases run with rfl | ⟨child, _, _, ⟨_, rfl⟩ | ⟨_, rfl⟩⟩
  · exact tracked
  · obtain ⟨jobId, adds⟩ := moveToBackground_adds ⟨child, cmdLine⟩ false (forked child s)
    intro other alive
    left
    rw [adds.jobs, pids, List.map_append, List.mem_append]
    have lived := adds.prunes.reaps.alive.mp alive
    rcases others child other lived with rfl | listed
    · exact Or.inr (by simp)
    · exact Or.inl (adds.prunes.keeps listed lived)
  · intro other alive
    simp only [awaiting, pushTimed_kernel, pushTimed_jobsVec] at alive ⊢
    rcases others child other alive with rfl | listed
    · exact Or.inr ⟨_, rfl, rfl⟩
    · exact Or.inl listed

/-- The job that `fg` takes off the list is in the foreground. -/
theorem fg {arg : Option Int} (tracked : Tracked s) (noCmd : s.foregroundCmd = none) :
    Tracked (executeFg arg s) := by
  rcases executeFg_cases arg s with same | ⟨i, job, front, back, l, found, phase, _, _, same⟩
  · rwa [same]
  · rw [same]
    intro pid alive
    rw [phase] at alive
    rcases tracked pid alive with listed | ⟨cmd, waited, _⟩
    · rw [found.split] at listed
      simp only [pids, List.map_append, List.map_cons, List.mem_append, List.mem_cons] at listed ⊢
      rcases listed with inFront | rfl | inBack
      · exact Or.inl (Or.inl inFront)
      · exact Or.inr ⟨_, rfl, rfl⟩
      · exact Or.inl (Or.inr inBack)
    · rw [noCmd] at waited
      exact absurd waited (by simp)

theorem signals {job : JobEntry} {signal : Int} (tracked : Tracked s) (signals : Signals s job signal l jobs) :
    Tracked { s with kernel := l, jobsVec := jobs } :=
  tracked.frame (kill_fades signals.kills).1.alive (fun _ listed _ => signals.pids ▸ listed) rfl

/-- A command loses no child. -/
theorem command {command : Command} {fork : Option Int} (tracked : Tracked s) (noCmd : s.foregroundCmd = none)
    (run : executeCommand command fork s = .ok t) : Tracked t := by
  refine executeCommand_rule (I := fun s => Tracked s ∧ s.foregroundCmd = none) (J := Tracked)
    ?_ ?_ ?_ ?_ ?_ ?_ ?_ ?_ ?_ ⟨tracked, noCmd⟩ run
  · exact fun s holds => ⟨holds.1.removeFinishedJobs, holds.2⟩
  · exact fun s _ _ holds => ⟨holds.1.fades (Fades.same rfl rfl) rfl rfl, holds.2⟩
  · exact fun s holds => holds.1
  · exact fun s t _ _ holds run => holds.1.external holds.2 run
  · intro s holds
    have pruned := holds.1.removeFinishedJobs
    refine pruned.frame (t := printJobsList s) (fun _ => id) (fun pid listed _ => ?_) rfl
    exact ((List.perm_insertionSort _ _).map JobEntry.pid).mem_iff.mpr listed
  · rintro s signal jobId ⟨tracked, _⟩
    rcases executeKill_cases signal jobId s with same | ⟨job, l, jobs, signals, same⟩
    · rwa [same]
    · exact same ▸ tracked.signals signals
  · exact fun s arg holds => holds.1.fg holds.2
  · rintro s arg ⟨tracked, _⟩
    rcases executeBg_cases arg s with same | ⟨job, l, jobs, signals, same⟩
    · rwa [same]
    · exact same ▸ tracked.signals signals
  · exact fun s left right holds => holds.1.fades (t := executePipe left right s) (Fades.refl _) rfl rfl

/-- A pass through a loop loses a child only when it releases it. -/
theorem poll (tracked : Tracked s) (watchful : Watchful .poll s) (run : poll s = .ok t) : Tracked t := by
  obtain ⟨cmd, waited, jobsVec, kernel, _, ⟨_, foregroundCmd, _⟩ | ⟨_, noCmd, _, released, _⟩⟩ :=
    poll_cases run
  · apply tracked.fades _ jobsVec foregroundCmd
    rw [kernel]
    exact (waitpid_reaps _ _).fades
  · intro pid alive
    left
    rw [kernel, (waitpid_reaps _ _).alive] at alive
    rw [jobsVec]
    rcases tracked pid alive with listed | ⟨other, same, rfl⟩
    · exact listed
    · obtain rfl := Option.some.inj (waited.symm.trans same)
      exact watchful cmd waited alive (released alive)

/-- A step loses no child unless a loop releases one. -/
theorem step {action : Action} (tracked : Tracked s) (attends : Attends s) (watchful : Watchful action s)
    (run : step action s = .ok t) : Tracked t := by
  cases action with
  | command command fork =>
    obtain ⟨prompt, run⟩ := command_run run
    exact tracked.command (attends.atPrompt prompt).1 run
  | poll => exact tracked.poll watchful run
  | wait reaped =>
    obtain ⟨_, behind, l, _, rfl, reaps, _⟩ := waitPipe_cases run
    refine tracked.fades ?_ (leaveWait_jobsVec _ _) (leaveWait_foregroundCmd _ _)
    rw [leaveWait_kernel]
    exact reaps.fades
  | ctrlZ =>
    obtain rfl := Except.ok.inj run
    rcases ctrlZ_cases s with ⟨same, _⟩ | ⟨cmd, l, jobId, _, phase, now, _, _, _, adds⟩
    · rwa [same]
    · have after : Tracked { s with kernel := l } := tracked.fades (Fades.same phase now) rfl rfl
      exact after.adds adds
  | ctrlC =>
    obtain rfl := Except.ok.inj run
    obtain ⟨l, same, phase, now, _⟩ := ctrlC_cases s
    exact same ▸ tracked.fades (Fades.same phase now) rfl rfl
  | alarm =>
    obtain ⟨_, rfl, fades, _⟩ := alarm_run run
    exact tracked.fades fades rfl rfl
  | change pid status =>
    obtain ⟨process, _, _, rfl, fades⟩ := change_run run
    exact tracked.fades fades rfl rfl
  | tick => exact Except.ok.inj run ▸ tracked.frame (fun _ => id) (fun _ listed _ => listed) rfl

end Tracked

/-- A loop that releases a child not on the list leaves it lost at the prompt. -/
theorem Attends.exposes {action : Action} (attends : Attends s)
    (shows : Ends Kept (fun _ => True) (Smash.step action s)) : Watchful action s := by
  cases action with
  | poll =>
    intro cmd waited alive released
    obtain ⟨t, run⟩ := attends.polls waited
    obtain ⟨other, same, jobsVec, kernel, _, ⟨_, _, _, _, _, stays⟩ | ⟨prompt, _⟩⟩ := poll_cases run
    · obtain rfl := Option.some.inj (waited.symm.trans same)
      exact absurd released stays
    · rw [← jobsVec]
      apply shows.reached run prompt
      rw [kernel, (waitpid_reaps _ _).alive]
      exact alive
  | _ => trivial

/-- At every prompt of a run all living children are on the list exactly when no
loop of the run releases a child that is not. -/
theorem runs_keep_iff (now : Int) (actions : List Action) :
    Obeys step Watchful actions (start now) ↔
      ∀ n, Ends Kept (fun _ => True) (smash now (actions.take n)) := by
  apply obeys_iff_shown (I := fun s => Attends s ∧ Tracked s)
  · exact fun s holds => holds.2.kept holds.1
  · rintro action s ⟨attends, tracked⟩ watchful
    cases run : step action s with
    | ok t => exact ⟨attends.step run, tracked.step attends watchful run⟩
    | error stop => trivial
  · exact fun action s holds shows => holds.1.exposes shows
  · exact ⟨start_attends now, fun pid alive => by simp [start, Kernel.phase] at alive⟩

/-- A foreground command is stopped by a signal that the shell did not send. -/
def stoppedElsewhere : List Action :=
  [.command (.external "sleep 100" false) (some 100), .change 100 (.changed .stopped), .poll]

/-- The shell is back at its prompt and has no entry for the stopped child. -/
theorem run_loses : ¬∀ now actions, Ends Kept (fun _ => True) (smash now actions) := by
  intro all
  refine not_ends (fun s => decide (s.mode = .prompt → s.kernel.phase 100 = .alive → 100 ∈ pids s.jobsVec))
    (fun s kept => decide_eq_true fun prompt => kept prompt 100) ?_ (all 0 stoppedElsewhere)
  decide +kernel

end OperatingSystems.Smash
