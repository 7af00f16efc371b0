import OperatingSystems.Smash.Timers

/-!
# One alarm for all timed commands

A new timeout replaces the pending alarm whatever deadlines are still to come,
and the handler sets none. A deadline is covered as long as a timeout is never
given with an earlier deadline ahead and the alarm is the last of those pending.
-/

namespace OperatingSystems.Smash

open Runs

variable {s t : Shell} {cmd : ForegroundCmd} {fork : Option Int} {pid : Int}

/-- When a timed command is to be killed. -/
def TimedCmd.deadline (timed : TimedCmd) : Int := timed.startTime + timed.timeToAlarm

/-- The entry is that of a living process whose deadline is still to come. -/
def Ahead (k : Kernel) (e : Nat × TimedCmd) : Prop := k.phase e.2.pid = .alive ∧ k.now < e.2.deadline

instance (k : Kernel) (e : Nat × TimedCmd) : Decidable (Ahead k e) := inferInstanceAs (Decidable (_ ∧ _))

/-- An alarm is pending that is due by then. -/
def Kernel.RingsBy (k : Kernel) (time : Int) : Prop := ∃ due ∈ k.alarm, due ≤ time

instance (k : Kernel) (time : Int) : Decidable (k.RingsBy time) := by
  unfold Kernel.RingsBy
  infer_instance

/-- An alarm is due no later than any deadline that is still to come. -/
def AlarmSet (s : Shell) : Prop := ∀ e ∈ s.timedCmds, Ahead s.kernel e → s.kernel.RingsBy e.2.deadline

instance (s : Shell) : Decidable (AlarmSet s) := by
  unfold AlarmSet
  infer_instance

/-- The duration that a command sets the alarm to, last. -/
def lastDuration : Command → Option Int
  | .timeout duration _ inner => if duration < 0 then none else some ((lastDuration inner).getD duration)
  | .redirection inner => lastDuration inner
  | _ => none

/-- The command starts a process without having set the alarm. -/
def startsUntimed : Command → Bool
  | .external _ _ => true
  | .redirection inner => startsUntimed inner
  | _ => false

/-- No deadline lies ahead of an alarm that is set now. -/
def Replaces (duration : Int) (s : Shell) : Prop :=
  ∀ e ∈ s.timedCmds, Ahead s.kernel e → duration ≠ 0 ∧ s.kernel.now + duration ≤ e.2.deadline

instance (duration : Int) (s : Shell) : Decidable (Replaces duration s) := by
  unfold Replaces
  infer_instance

/-- A process that takes a request left over by an earlier timeout finds its
alarm pending. -/
def TakesPending (s : Shell) : Prop :=
  s.timeThis.timeThis = true → 0 < s.timeThis.timeToAlarm → s.kernel.alarm ≠ none

instance (s : Shell) : Decidable (TakesPending s) := by
  unfold TakesPending
  infer_instance

/-- No alarm that is needed is replaced, used up or taken for another's. -/
def Punctual : Action → Shell → Prop
  | .command command fork, s =>
    (∀ duration ∈ lastDuration command, Replaces duration s) ∧
      (startsUntimed command = true → fork ≠ none → TakesPending s)
  | .alarm, s => ∀ e ∈ s.timedCmds, ¬Ahead s.kernel e
  | _, _ => True

instance (action : Action) (s : Shell) : Decidable (Punctual action s) := by
  unfold Punctual
  split
  all_goals infer_instance

/-- The alarm that a request was made with, if it is still pending, is due before
a command that takes the request now would time out. -/
def Requested (s : Shell) : Prop :=
  s.timeThis.timeThis = true → ∀ due ∈ s.kernel.alarm, due ≤ s.kernel.now + s.timeThis.timeToAlarm

namespace AlarmSet

/-- Only the entries of processes that live matter. -/
theorem frame (alarmSet : AlarmSet s)
    (listed : ∀ e ∈ t.timedCmds, t.kernel.phase e.2.pid = .alive →
      e ∈ s.timedCmds ∧ s.kernel.phase e.2.pid = .alive)
    (now : s.kernel.now ≤ t.kernel.now) (alarm : t.kernel.alarm = s.kernel.alarm) : AlarmSet t := by
  rintro e member ⟨alive, ahead⟩
  obtain ⟨former, lived⟩ := listed e member alive
  unfold Kernel.RingsBy
  rw [alarm]
  exact alarmSet e former ⟨lived, by omega⟩

/-- Nobody comes to life. -/
theorem fades (alarmSet : AlarmSet s) (fades : Fades s.kernel t.kernel) (timedCmds : t.timedCmds = s.timedCmds)
    (alarm : t.kernel.alarm = s.kernel.alarm) : AlarmSet t :=
  alarmSet.frame (fun _ member alive => ⟨timedCmds ▸ member, fades.alive _ alive⟩) (le_of_eq fades.now.symm) alarm

/-- A fresh process has no deadline before it is on the list. -/
theorem forked (alarmSet : AlarmSet s) (timed : Timed s) (child : 0 < pid) (fresh : s.kernel.table pid = none) :
    AlarmSet (forked pid s) := by
  refine alarmSet.frame (t := Smash.forked pid s) (fun e member alive => ⟨member, ?_⟩) (le_refl _) rfl
  rw [forked_phase] at alive
  by_cases here : e.2.pid = pid
  · have absent : s.kernel.phase pid = .absent := by
      simp [Kernel.phase, fresh]
    have listed : pid ∈ timedPids s.timedCmds := mem_timedPids.mpr ⟨by omega, e, member, here⟩
    exact absurd absent (timed.known pid listed)
  · rwa [Function.update_of_ne here] at alive

/-- A request joins the list whose process has its alarm. -/
theorem push (alarmSet : AlarmSet s) (timedCmds : t.timedCmds = (pushTimed s).2.timedCmds)
    (fades : Fades s.kernel t.kernel) (alarm : t.kernel.alarm = s.kernel.alarm)
    (request : s.timeThis.timeThis = true → ∀ number, Ahead s.kernel (number, s.timeThis) →
      s.kernel.RingsBy s.timeThis.deadline) : AlarmSet t := by
  rcases pushTimed_cases s with ⟨_, same⟩ | ⟨requested, pushes⟩
  · rw [same] at timedCmds
    exact alarmSet.fades fades timedCmds alarm
  · rw [pushes] at timedCmds
    rintro e member ⟨alive, ahead⟩
    unfold Kernel.RingsBy
    rw [alarm]
    rw [fades.now] at ahead
    have before : Ahead s.kernel e := ⟨fades.alive _ alive, ahead⟩
    rw [timedCmds, List.mem_append, List.mem_singleton] at member
    rcases member with old | rfl
    · exact alarmSet e old before
    · exact request requested _ before

/-- A new process has the alarm of the request it takes. -/
theorem external {cmdLine : String} {isInBg : Bool} (alarmSet : AlarmSet s) (timed : Timed s)
    (requested : Requested s) (takes : fork ≠ none → TakesPending s)
    (run : executeExternal cmdLine isInBg fork s = .ok t) : AlarmSet t := by
  cases fork with
  | none =>
    obtain rfl := Except.ok.inj run
    exact alarmSet
  | some child =>
    have takes := takes (by simp)
    have request : ∀ pid, (Smash.forked pid s).timeThis.timeThis = true → ∀ number : Nat,
        Ahead (Smash.forked pid s).kernel (number, (Smash.forked pid s).timeThis) →
        (Smash.forked pid s).kernel.RingsBy (Smash.forked pid s).timeThis.deadline := by
      intro pid taken number ahead
      have flagged : s.timeThis.timeThis = true := by
        cases flag : s.timeThis.timeThis
        · simp [Smash.forked, flag] at taken
        · rfl
      have record : (Smash.forked pid s).timeThis =
          { s.timeThis with pid := pid, startTime := s.kernel.now } := by
        simp [Smash.forked, flagged]
      rw [record] at ahead ⊢
      obtain ⟨_, future⟩ := ahead
      have later : s.kernel.now < s.kernel.now + s.timeThis.timeToAlarm := future
      obtain ⟨due, pending⟩ := Option.ne_none_iff_exists'.mp (takes flagged (by omega))
      exact ⟨due, pending, requested flagged due pending⟩
    rcases executeExternal_cases run with rfl | ⟨pid, child, fresh, ⟨_, rfl⟩ | ⟨_, rfl⟩⟩
    · exact alarmSet
    · have reaps := (removeFinishedJobs_prunes (Smash.forked pid s)).reaps
      refine (alarmSet.forked timed child fresh).push (moveToBackground_timed _ false _).1 ?_ ?_ (request pid)
      · rw [moveToBackground_kernel]
        exact reaps.fades
      · rw [moveToBackground_kernel]
        exact reaps.alarm
    · refine (alarmSet.forked timed child fresh).push rfl ?_ ?_ (request pid)
      · simp only [awaiting, pushTimed_kernel]
        exact Fades.refl _
      · simp only [awaiting, pushTimed_kernel]

/-- The alarm is set to a duration that no deadline lies ahead of. -/
theorem setTimeout {duration : Int} {cmdLine : String} (replaces : Replaces duration s) :
    AlarmSet (setTimeout duration cmdLine s) := by
  rintro e member ⟨alive, future⟩
  obtain ⟨some_, due⟩ := replaces e member ⟨alive, future⟩
  refine ⟨s.kernel.now + duration, ?_, due⟩
  simp [Smash.setTimeout, Kernel.setAlarm, some_]

end AlarmSet

/-- What a command line needs for the alarm to be set afterwards. -/
def Prepared (command : Command) (fork : Option Int) (s : Shell) : Prop :=
  match lastDuration command with
  | some duration => Replaces duration s
  | none => AlarmSet s ∧ (startsUntimed command = true → fork ≠ none → TakesPending s)

theorem Replaces.fades {duration : Int} (replaces : Replaces duration s) (fades : Fades s.kernel t.kernel)
    (timedCmds : t.timedCmds = s.timedCmds) : Replaces duration t := by
  rintro e member ⟨alive, future⟩
  rw [timedCmds] at member
  rw [fades.now] at future ⊢
  exact replaces e member ⟨fades.alive _ alive, future⟩

theorem TakesPending.fades (takes : TakesPending s) (timeThis : t.timeThis = s.timeThis)
    (alarm : t.kernel.alarm = s.kernel.alarm) : TakesPending t := by
  unfold TakesPending
  rw [timeThis, alarm]
  exact takes

theorem Prepared.fades {command : Command} (prepared : Prepared command fork s)
    (fades : Fades s.kernel t.kernel) (timedCmds : t.timedCmds = s.timedCmds)
    (timeThis : t.timeThis = s.timeThis) (alarm : t.kernel.alarm = s.kernel.alarm) : Prepared command fork t := by
  unfold Prepared at *
  split at prepared
  · exact prepared.fades fades timedCmds
  · exact ⟨prepared.1.fades fades timedCmds alarm,
      fun starts made => (prepared.2 starts made).fades timeThis alarm⟩

/-- `timeThis` leaves no request. -/
theorem pushTimed_taken (s : Shell) :
    (pushTimed s).2.timeThis.timeThis = false := by
  rcases pushTimed_cases s with ⟨idle, same⟩ | ⟨_, pushes⟩
  · rw [same]
    exact idle
  · rw [pushes]

namespace Requested

/-- The alarm is the same or was used up, and time passes. -/
theorem frame (requested : Requested s) (timeThis : t.timeThis = s.timeThis)
    (now : s.kernel.now ≤ t.kernel.now) (alarm : t.kernel.alarm = s.kernel.alarm ∨ t.kernel.alarm = none) :
    Requested t := by
  intro flagged due pending
  rw [timeThis] at flagged ⊢
  rcases alarm with same | used
  · rw [same] at pending
    have := requested flagged due pending
    omega
  · rw [used] at pending
    exact absurd pending (by simp)

theorem fades (requested : Requested s) (fades : Fades s.kernel t.kernel) (timeThis : t.timeThis = s.timeThis)
    (alarm : t.kernel.alarm = s.kernel.alarm) : Requested t :=
  requested.frame timeThis (le_of_eq fades.now.symm) (Or.inl alarm)

/-- Without a request there is nothing to say. -/
theorem taken (taken : t.timeThis.timeThis = false) : Requested t := by
  intro flagged
  rw [taken] at flagged
  exact absurd flagged (by simp)

theorem removeFinishedJobs (requested : Requested s) : Requested (removeFinishedJobs s) := by
  have reaps := (removeFinishedJobs_prunes s).reaps
  exact requested.fades reaps.fades rfl reaps.alarm

theorem setTimeout (duration : Int) (cmdLine : String) (s : Shell) :
    Requested (setTimeout duration cmdLine s) := by
  intro _ due pending
  simp only [Smash.setTimeout, Kernel.setAlarm] at pending
  split at pending
  · exact absurd pending (by simp)
  · rw [← Option.mem_some.mp pending]
    exact le_refl _

theorem external {cmdLine : String} {isInBg : Bool} (requested : Requested s)
    (run : executeExternal cmdLine isInBg fork s = .ok t) : Requested t := by
  rcases executeExternal_cases run with rfl | ⟨child, _, _, ⟨_, rfl⟩ | ⟨_, rfl⟩⟩
  · exact requested
  · apply taken
    rw [(moveToBackground_timed _ _ _).2]
    exact pushTimed_taken _
  · exact taken (pushTimed_taken _)

theorem command {command : Command} (requested : Requested s)
    (run : executeCommand command fork s = .ok t) : Requested t := by
  refine executeCommand_rule (I := Requested) (J := Requested) ?_ ?_ ?_ ?_ ?_ ?_ ?_ ?_ ?_ requested run
  · exact fun s requested => requested.removeFinishedJobs
  · exact fun s duration cmdLine _ => setTimeout duration cmdLine s
  · exact fun s requested => requested
  · exact fun s t _ _ requested run => requested.external run
  · intro s requested
    exact requested.removeFinishedJobs.frame (t := printJobsList s) rfl (le_refl _) (Or.inl rfl)
  · intro s signal jobId requested
    rcases executeKill_cases signal jobId s with same | ⟨job, l, jobs, signals, same⟩
    · rwa [same]
    · obtain ⟨fades, alarm⟩ := kill_fades signals.kills
      exact same ▸ requested.fades fades rfl alarm
  · intro s arg requested
    rcases executeFg_cases arg s with same | ⟨i, job, front, back, l, _, phase, now, alarm, same⟩
    · rwa [same]
    · exact same ▸ requested.fades (Fades.same phase now) rfl alarm
  · intro s arg requested
    rcases executeBg_cases arg s with same | ⟨job, l, jobs, signals, same⟩
    · rwa [same]
    · obtain ⟨fades, alarm⟩ := kill_fades signals.kills
      exact same ▸ requested.fades fades rfl alarm
  · exact fun s left right requested => requested.fades (t := executePipe left right s) (Fades.refl _) rfl rfl

/-- Every step keeps a request in time for its alarm. -/
theorem step {action : Action} (requested : Requested s) (run : step action s = .ok t) : Requested t := by
  cases action with
  | command command fork => exact requested.command (command_run run).2
  | poll =>
    obtain ⟨cmd, _, _, kernel, timeThis, _⟩ := poll_cases run
    have reaps := waitpid_reaps s.kernel cmd.childPid
    rw [← kernel] at reaps
    exact requested.fades reaps.fades timeThis reaps.alarm
  | wait reaped =>
    obtain ⟨_, behind, l, _, rfl, reaps, _⟩ := waitPipe_cases run
    refine requested.fades ?_ (leaveWait_timeThis _ _) ?_
    · rw [leaveWait_kernel]
      exact reaps.fades
    · rw [leaveWait_kernel]
      exact reaps.alarm
  | ctrlZ =>
    obtain rfl := Except.ok.inj run
    rcases ctrlZ_cases s with ⟨same, _⟩ | ⟨cmd, l, jobId, _, _, _, _, _, same, _⟩
    · rwa [same]
    · apply taken
      rw [same, (moveToBackground_timed _ _ _).2]
      exact pushTimed_taken _
  | ctrlC =>
    obtain rfl := Except.ok.inj run
    obtain ⟨l, same, phase, now, alarm⟩ := ctrlC_cases s
    exact same ▸ requested.fades (Fades.same phase now) rfl alarm
  | alarm =>
    obtain ⟨_, same, fades, alarm, _⟩ := alarm_run run
    exact requested.frame (same ▸ rfl) (le_of_eq fades.now.symm) (Or.inr alarm)
  | change pid status =>
    obtain ⟨process, _, _, same, fades⟩ := change_run run
    exact requested.fades fades (same ▸ rfl) (same ▸ rfl)
  | tick =>
    obtain rfl := Except.ok.inj run
    exact requested.frame (t := { s with kernel := { s.kernel with now := s.kernel.now + 1 } }) rfl
      (Int.le_add_one (le_refl _)) (Or.inl rfl)

end Requested

/-- A command for which the alarm is prepared leaves it set. -/
theorem Prepared.execute {command : Command} (prepared : Prepared command fork s) (timed : Timed s)
    (requested : Requested s) (run : execute fork command s = .ok t) : AlarmSet t := by
  induction command generalizing s with
  | external cmdLine isInBg => exact prepared.1.external timed requested (prepared.2 rfl) run
  | jobs =>
    obtain rfl := Except.ok.inj run
    have reaps := (removeFinishedJobs_prunes s).reaps
    exact prepared.1.fades (t := printJobsList s) reaps.fades rfl reaps.alarm
  | kill signal jobId =>
    obtain rfl := Except.ok.inj run
    rcases executeKill_cases signal jobId s with same | ⟨job, l, jobs, signals, same⟩
    · rw [same]
      exact prepared.1
    · obtain ⟨fades, alarm⟩ := kill_fades signals.kills
      exact same ▸ prepared.1.fades fades rfl alarm
  | fg arg =>
    obtain rfl := Except.ok.inj run
    rcases executeFg_cases arg s with same | ⟨i, job, front, back, l, _, phase, now, alarm, same⟩
    · rw [same]
      exact prepared.1
    · exact same ▸ prepared.1.fades (Fades.same phase now) rfl alarm
  | bg arg =>
    obtain rfl := Except.ok.inj run
    rcases executeBg_cases arg s with same | ⟨job, l, jobs, signals, same⟩
    · rw [same]
      exact prepared.1
    · obtain ⟨fades, alarm⟩ := kill_fades signals.kills
      exact same ▸ prepared.1.fades fades rfl alarm
  | timeout duration cmdLine inner inductionHypothesis =>
    unfold Smash.execute at run
    split at run
    · next negative =>
      obtain rfl := Except.ok.inj run
      simp only [Prepared, lastDuration, if_pos negative] at prepared
      exact prepared.1
    · next allowed =>
      simp only [Prepared, lastDuration, if_neg allowed] at prepared
      -- The alarm that counts is that of the innermost timeout.
      have inside : Prepared inner fork (setTimeout duration cmdLine s) := by
        unfold Prepared
        cases last : lastDuration inner with
        | some shorter =>
          rw [last] at prepared
          exact prepared.fades (Fades.same rfl rfl) rfl
        | none =>
          rw [last] at prepared
          refine ⟨AlarmSet.setTimeout prepared, fun _ _ _ positive => ?_⟩
          have positive : 0 < duration := positive
          simp [setTimeout, Kernel.setAlarm, show duration ≠ 0 by omega]
      have reaps := (removeFinishedJobs_prunes (setTimeout duration cmdLine s)).reaps
      exact inductionHypothesis (inside.fades reaps.fades rfl rfl reaps.alarm)
        (timed.setTimeout duration cmdLine).removeFinishedJobs
        (Requested.setTimeout duration cmdLine s).removeFinishedJobs run
  | redirection inner inductionHypothesis =>
    have reaps := (removeFinishedJobs_prunes s).reaps
    have inside : Prepared inner fork s := prepared
    exact inductionHypothesis (inside.fades reaps.fades rfl rfl reaps.alarm) timed.removeFinishedJobs
      requested.removeFinishedJobs run
  | pipe left right =>
    obtain rfl := Except.ok.inj run
    exact prepared.1.fades (t := executePipe left right s) (Fades.refl _) rfl rfl
  | quit => exact absurd run (by simp [Smash.execute])
  | other =>
    obtain rfl := Except.ok.inj run
    exact prepared.1

/-- A punctual step leaves the alarm set. -/
theorem AlarmSet.step {action : Action} (alarmSet : AlarmSet s) (timed : Timed s) (requested : Requested s)
    (punctual : Punctual action s) (run : step action s = .ok t) : AlarmSet t := by
  cases action with
  | command command fork =>
    have prepared : Prepared command fork s := by
      unfold Prepared
      split
      · next duration last => exact punctual.1 duration last
      · exact ⟨alarmSet, punctual.2⟩
    have reaps := (removeFinishedJobs_prunes s).reaps
    exact (prepared.fades reaps.fades rfl rfl reaps.alarm).execute timed.removeFinishedJobs
      requested.removeFinishedJobs (command_run run).2
  | poll =>
    obtain ⟨cmd, _, _, kernel, _, ends⟩ := poll_cases run
    have reaps := waitpid_reaps s.kernel cmd.childPid
    rw [← kernel] at reaps
    rcases ends with ⟨_, _, _, same, _⟩ | ⟨_, _, _, _, same | ⟨_, it, _, same⟩⟩
    · exact alarmSet.fades reaps.fades same reaps.alarm
    · exact alarmSet.fades reaps.fades same reaps.alarm
    · refine alarmSet.frame (fun e member alive => ?_) (le_of_eq reaps.now.symm) reaps.alarm
      rw [same] at member
      obtain ⟨former, listed, becomes⟩ := List.mem_map.mp member
      split at becomes
      · -- An entry that was reset has no process.
        rw [← becomes, reaps.alive, timed.nobody] at alive
        exact absurd alive (by simp)
      · exact becomes ▸ ⟨listed, reaps.alive.mp (becomes ▸ alive)⟩
  | wait reaped =>
    obtain ⟨_, behind, l, _, rfl, reaps, _⟩ := waitPipe_cases run
    refine alarmSet.fades ?_ (leaveWait_timedCmds _ _) ?_
    · rw [leaveWait_kernel]
      exact reaps.fades
    · rw [leaveWait_kernel]
      exact reaps.alarm
  | ctrlZ =>
    obtain rfl := Except.ok.inj run
    rcases ctrlZ_cases s with ⟨same, _⟩ | ⟨cmd, l, jobId, _, phase, now, alarm, _, same, _⟩
    · rwa [same]
    · have after : AlarmSet { s with kernel := l } := alarmSet.fades (Fades.same phase now) rfl alarm
      have reaps := (removeFinishedJobs_prunes { s with kernel := l }).reaps
      rw [same]
      refine after.push (moveToBackground_timed _ _ _).1 ?_ ?_ ?_
      · rw [moveToBackground_kernel]
        exact reaps.fades
      · rw [moveToBackground_kernel]
        exact reaps.alarm
      · -- A request that nobody has taken has no process.
        intro flagged number ahead
        have alive := ahead.1
        simp only [timed.pending flagged, phase, timed.nobody] at alive
        exact absurd alive (by simp)
  | ctrlC =>
    obtain rfl := Except.ok.inj run
    obtain ⟨l, same, phase, now, alarm⟩ := ctrlC_cases s
    exact same ▸ alarmSet.fades (Fades.same phase now) rfl alarm
  | alarm =>
    obtain ⟨_, _, fades, _, sublist⟩ := alarm_run run
    rintro e member ⟨alive, future⟩
    rw [fades.now] at future
    exact absurd ⟨fades.alive _ alive, future⟩ (punctual e (sublist.subset member))
  | change pid status =>
    obtain ⟨process, _, _, same, fades⟩ := change_run run
    exact alarmSet.fades fades (same ▸ rfl) (same ▸ rfl)
  | tick =>
    obtain rfl := Except.ok.inj run
    exact alarmSet.frame (t := { s with kernel := { s.kernel with now := s.kernel.now + 1 } })
      (fun e member alive => ⟨member, alive⟩) (Int.le_add_one (le_refl _)) rfl

/-- In a run whose timeouts and alarms come in time for each other, an alarm is
pending at every prompt for each deadline that is still to come. -/
theorem runs_ring (now : Int) (actions : List Action) (punctual : Obeys step Punctual actions (start now)) :
    Ends (fun s => s.mode = .prompt → AlarmSet s) (fun _ => True) (smash now actions) := by
  have ends : Ends (fun s => AlarmSet s ∧ Timed s ∧ Requested s) (fun _ => True) (smash now actions) := by
    refine execute_ends ?_ ⟨?_, start_timed now, Requested.taken rfl⟩ punctual
    · rintro action s ⟨alarmSet, timed, requested⟩ punctual
      cases run : step action s with
      | ok t => exact ⟨alarmSet.step timed requested punctual run, timed.step run, requested.step run⟩
      | error stop => trivial
    · exact fun e member => absurd member List.not_mem_nil
  cases run : smash now actions with
  | ok t =>
    rw [run] at ends
    exact fun _ => ends.1
  | error stop => trivial

/-- The later of two timeouts ends first. -/
theorem runs_ring_sample : Ends (fun s => s.mode = .prompt → AlarmSet s) (fun _ => True) (smash 0
    [.command (.timeout 9 "timeout 9 sleep 100 &" (.external "sleep 100 &" true)) (some 100), .tick,
      .command (.timeout 5 "timeout 5 sleep 100 &" (.external "sleep 100 &" true)) (some 101), .tick]) :=
  runs_ring 0 _ (by decide +kernel)

/-- A long timeout is given while a short one runs. -/
def outlasted : List Action :=
  [.command (.timeout 5 "timeout 5 sleep 100 &" (.external "sleep 100 &" true)) (some 100),
    .command (.timeout 50 "timeout 50 sleep 100 &" (.external "sleep 100 &" true)) (some 101)]

/-- The alarm of the short timeout is gone. -/
theorem run_rings_late : ¬∀ now actions,
    Ends (fun s => s.mode = .prompt → AlarmSet s) (fun _ => True) (smash now actions) := by
  intro all
  refine not_ends (fun s => decide (s.mode = .prompt → AlarmSet s)) (fun s holds => decide_eq_true holds) ?_
    (all 0 outlasted)
  decide +kernel

end OperatingSystems.Smash
