import OperatingSystems.Smash.Steps

/-!
# The list of timed commands

A record joins the list with the process that was just made, or with no process
at all. So the processes on the list were started and no two entries share one.
-/

namespace OperatingSystems.Smash

variable {s t : Shell} {k l : Kernel} {timed rest : List (Nat × TimedCmd)} {cmd : ForegroundCmd} {pid : Int}

/-- The processes of the timed commands; -1 stands for none. -/
def timedPids (timed : List (Nat × TimedCmd)) : List Int := (timed.map fun e => e.2.pid).filter (· ≠ -1)

@[simp] theorem timedPids_nil : timedPids [] = [] := rfl

theorem timedPids_cons (e : Nat × TimedCmd) (timed : List (Nat × TimedCmd)) :
    timedPids (e :: timed) = if e.2.pid = -1 then timedPids timed else e.2.pid :: timedPids timed := by
  unfold timedPids
  rw [List.map_cons, List.filter_cons]
  by_cases none : e.2.pid = -1
  · simp [none]
  · simp [none]

theorem timedPids_append (front back : List (Nat × TimedCmd)) :
    timedPids (front ++ back) = timedPids front ++ timedPids back := by
  unfold timedPids
  rw [List.map_append, List.filter_append]

theorem mem_timedPids : pid ∈ timedPids timed ↔ pid ≠ -1 ∧ ∃ e ∈ timed, e.2.pid = pid := by
  unfold timedPids
  rw [List.mem_filter, List.mem_map]
  simp [and_comm]

theorem timedPids_sublist (sublist : rest.Sublist timed) : (timedPids rest).Sublist (timedPids timed) :=
  (sublist.map _).filter _

/-- Behind an entry no process is listed twice either. -/
theorem timedPids_tail {it : Nat × TimedCmd} (distinct : (timedPids (it :: rest)).Nodup) :
    (timedPids rest).Nodup :=
  distinct.sublist (timedPids_sublist (List.sublist_cons_self it rest))

/-- The processes behind an entry are others than its own. -/
theorem timedPids_apart {it e : Nat × TimedCmd} (distinct : (timedPids (it :: rest)).Nodup)
    (somebody : it.2.pid ≠ -1) (member : e ∈ rest) : e.2.pid ≠ it.2.pid := by
  intro same
  rw [timedPids_cons, if_neg somebody, List.nodup_cons] at distinct
  exact distinct.1 (mem_timedPids.mpr ⟨somebody, e, member, same⟩)

/-- What happens to the process of an entry concerns none of those behind. -/
theorem Handles.apart {it e : Nat × TimedCmd} {stays : Bool} (handles : Handles k it l stays)
    (distinct : (timedPids (it :: rest)).Nodup) (member : e ∈ rest) : l.table e.2.pid = k.table e.2.pid := by
  by_cases nobody : it.2.pid = -1
  · rw [(handles.nobody nobody).2]
  · exact handles.others _ (timedPids_apart distinct nobody member)

/-- `timeThis` appends the record and takes the request back, if there is one. -/
theorem pushTimed_cases (s : Shell) :
    (s.timeThis.timeThis = false ∧ pushTimed s = (none, s)) ∨
      (s.timeThis.timeThis = true ∧ pushTimed s = (some s.nodes, { s with
        timedCmds := s.timedCmds ++ [(s.nodes, s.timeThis)]
        nodes := s.nodes + 1
        timeThis := { s.timeThis with timeThis := false } })) := by
  unfold pushTimed
  cases s.timeThis.timeThis
  · exact Or.inl ⟨rfl, rfl⟩
  · exact Or.inr ⟨rfl, rfl⟩

/-- A command that moves to the background takes the request as `timeThis` does. -/
theorem moveToBackground_timed (cmd : ForegroundCmd) (isStopped : Bool) (s : Shell) :
    (moveToBackground cmd isStopped s).timedCmds = (pushTimed s).2.timedCmds ∧
      (moveToBackground cmd isStopped s).timeThis = (pushTimed s).2.timeThis := by
  have request : (addJob cmd isStopped s).timeThis = s.timeThis := rfl
  unfold moveToBackground pushTimed
  rw [request]
  split
  · exact ⟨rfl, rfl⟩
  · exact ⟨rfl, rfl⟩

/-- `reset_timed_cmd` takes a process off the list, or none. -/
theorem resetTimedCmd_pids (it : Option Nat) (s : Shell) :
    (timedPids (resetTimedCmd it s).timedCmds).Sublist (timedPids s.timedCmds) := by
  unfold resetTimedCmd
  simp only
  induction s.timedCmds with
  | nil => exact List.Sublist.refl _
  | cons e rest inductionHypothesis =>
    rw [List.map_cons, timedPids_cons, timedPids_cons]
    by_cases here : it = some e.1
    · rw [if_pos here, if_pos rfl]
      split
      · exact inductionHypothesis
      · exact inductionHypothesis.cons _
    · rw [if_neg here]
      split
      · exact inductionHypothesis
      · exact inductionHypothesis.cons_cons _

/-- The processes of the timed commands were started and are distinct, a request
that waits for a command has no process, and -1 is none. -/
structure Timed (s : Shell) : Prop where
  known : ∀ pid ∈ timedPids s.timedCmds, s.kernel.phase pid ≠ .absent
  distinct : (timedPids s.timedCmds).Nodup
  pending : s.timeThis.timeThis = true → s.timeThis.pid = -1
  nobody : s.kernel.phase (-1) = .absent

namespace Timed

/-- Fewer processes on the list, and nobody appears. -/
theorem frame (timed : Timed s) (sublist : (timedPids t.timedCmds).Sublist (timedPids s.timedCmds))
    (absent : ∀ pid, t.kernel.phase pid = .absent ↔ s.kernel.phase pid = .absent)
    (timeThis : t.timeThis = s.timeThis) : Timed t where
  known := by
    intro pid listed
    rw [Ne, absent]
    exact timed.known pid (sublist.subset listed)
  distinct := timed.distinct.sublist sublist
  pending := by
    rw [timeThis]
    exact timed.pending
  nobody := (absent _).mpr timed.nobody

theorem fades (timed : Timed s) (fades : Fades s.kernel t.kernel) (timedCmds : t.timedCmds = s.timedCmds)
    (timeThis : t.timeThis = s.timeThis) : Timed t :=
  timed.frame (timedCmds ▸ List.Sublist.refl _) fades.absent timeThis

/-- A request without a process, pushed by the handler of Ctrl-Z. -/
theorem push (timed : Timed s) (timedCmds : t.timedCmds = (pushTimed s).2.timedCmds)
    (timeThis : t.timeThis = (pushTimed s).2.timeThis)
    (absent : ∀ pid, t.kernel.phase pid = .absent ↔ s.kernel.phase pid = .absent) : Timed t := by
  rcases pushTimed_cases s with ⟨_, same⟩ | ⟨requested, pushes⟩
  · rw [same] at timedCmds timeThis
    exact timed.frame (timedCmds ▸ List.Sublist.refl _) absent timeThis
  · rw [pushes] at timedCmds timeThis
    have pids : timedPids t.timedCmds = timedPids s.timedCmds := by
      rw [timedCmds, timedPids_append, timedPids_cons, if_pos (timed.pending requested)]
      simp
    refine ⟨?_, ?_, ?_, (absent _).mpr timed.nobody⟩
    · intro pid listed
      rw [Ne, absent]
      exact timed.known pid (pids ▸ listed)
    · rw [pids]
      exact timed.distinct
    · rw [timeThis]
      exact fun requested => absurd requested (by simp)

/-- A request that a new process has taken. -/
theorem pushForked (timed : Timed s) (child : 0 < pid) (fresh : s.kernel.table pid = none)
    (timedCmds : t.timedCmds = (pushTimed (forked pid s)).2.timedCmds)
    (timeThis : t.timeThis = (pushTimed (forked pid s)).2.timeThis)
    (absent : ∀ other, t.kernel.phase other = .absent ↔ (forked pid s).kernel.phase other = .absent) :
    Timed t := by
  have notListed : pid ∉ timedPids s.timedCmds := by
    intro listed
    apply timed.known pid listed
    simp [Kernel.phase, fresh]
  have known : ∀ other, other = pid ∨ other ∈ timedPids s.timedCmds → t.kernel.phase other ≠ .absent := by
    intro other either
    rw [Ne, absent, forked_phase]
    by_cases here : other = pid
    · rw [here, Function.update_self]
      simp
    · rw [Function.update_of_ne here]
      exact timed.known other (either.resolve_left here)
  have nobody : t.kernel.phase (-1) = .absent := by
    rw [absent, forked_phase, Function.update_of_ne (by omega)]
    exact timed.nobody
  cases requested : s.timeThis.timeThis with
  | false =>
    have idle : (forked pid s).timeThis = s.timeThis := by
      simp [forked, requested]
    rcases pushTimed_cases (forked pid s) with ⟨_, same⟩ | ⟨absurdly, _⟩
    · rw [same] at timedCmds timeThis
      have list : t.timedCmds = s.timedCmds := timedCmds
      refine ⟨?_, list ▸ timed.distinct, ?_, nobody⟩
      · exact fun other listed => known other (Or.inr (list ▸ listed))
      · rw [timeThis, idle, requested]
        exact fun absurdly => absurd absurdly (by simp)
    · rw [idle, requested] at absurdly
      exact absurd absurdly (by simp)
  | true =>
    have taken : (forked pid s).timeThis = { s.timeThis with pid := pid, startTime := s.kernel.now } := by
      simp [forked, requested]
    rcases pushTimed_cases (forked pid s) with ⟨absurdly, _⟩ | ⟨_, pushes⟩
    · rw [taken] at absurdly
      exact absurd (requested.symm.trans absurdly) (by simp)
    · rw [pushes] at timedCmds timeThis
      have pids : timedPids t.timedCmds = timedPids s.timedCmds ++ [pid] := by
        rw [timedCmds, timedPids_append, timedPids_cons, taken, if_neg (by simp only; omega)]
        rfl
      refine ⟨?_, ?_, ?_, nobody⟩
      · intro other listed
        rw [pids, List.mem_append, List.mem_singleton] at listed
        exact known other listed.symm
      · rw [pids, List.nodup_append]
        refine ⟨timed.distinct, by simp, ?_⟩
        intro other listed new same equal
        rw [List.mem_singleton.mp same] at equal
        exact notListed (equal ▸ listed)
      · rw [timeThis]
        exact fun absurdly => absurd absurdly (by simp)

theorem external {cmdLine : String} {isInBg : Bool} {fork : Option Int} (timed : Timed s)
    (run : executeExternal cmdLine isInBg fork s = .ok t) : Timed t := by
  rcases executeExternal_cases run with rfl | ⟨child, positive, fresh, ⟨_, rfl⟩ | ⟨_, rfl⟩⟩
  · exact timed
  · obtain ⟨jobId, adds⟩ := moveToBackground_adds ⟨child, cmdLine⟩ false (forked child s)
    obtain ⟨timedCmds, timeThis⟩ := moveToBackground_timed ⟨child, cmdLine⟩ false (forked child s)
    exact timed.pushForked positive fresh timedCmds timeThis fun _ => adds.prunes.reaps.absent
  · refine timed.pushForked positive fresh rfl rfl fun other => ?_
    simp only [awaiting, pushTimed_kernel]

theorem signals {job : JobEntry} {jobs : List JobEntry} {signal : Int} (timed : Timed s)
    (signals : Signals s job signal l jobs) : Timed { s with kernel := l, jobsVec := jobs } :=
  timed.fades (kill_fades signals.kills).1 rfl rfl

theorem removeFinishedJobs (timed : Timed s) : Timed (removeFinishedJobs s) :=
  timed.fades (removeFinishedJobs_prunes s).reaps.fades rfl rfl

/-- A request is made without a process. -/
theorem setTimeout (timed : Timed s) (duration : Int) (cmdLine : String) :
    Timed (setTimeout duration cmdLine s) :=
  ⟨timed.known, timed.distinct, fun _ => rfl, timed.nobody⟩

theorem command {command : Command} {fork : Option Int} (timed : Timed s)
    (run : executeCommand command fork s = .ok t) : Timed t := by
  refine executeCommand_rule (I := Timed) (J := Timed) ?_ ?_ ?_ ?_ ?_ ?_ ?_ ?_ ?_ timed run
  · exact fun s timed => timed.removeFinishedJobs
  · exact fun s duration cmdLine timed => timed.setTimeout duration cmdLine
  · exact fun s timed => timed
  · exact fun s t _ _ timed run => timed.external run
  · exact fun s timed => timed.fades (t := printJobsList s) (removeFinishedJobs_prunes s).reaps.fades rfl rfl
  · intro s signal jobId timed
    rcases executeKill_cases signal jobId s with same | ⟨job, l, jobs, signals, same⟩
    · rwa [same]
    · exact same ▸ timed.signals signals
  · intro s arg timed
    rcases executeFg_cases arg s with same | ⟨i, job, front, back, l, _, phase, now, _, same⟩
    · rwa [same]
    · exact same ▸ timed.fades (Fades.same phase now) rfl rfl
  · intro s arg timed
    rcases executeBg_cases arg s with same | ⟨job, l, jobs, signals, same⟩
    · rwa [same]
    · exact same ▸ timed.signals signals
  · exact fun s left right timed => timed.fades (t := executePipe left right s) (Fades.refl _) rfl rfl

/-- Every step keeps the list of timed commands in order. -/
theorem step {action : Action} (timed : Timed s) (run : step action s = .ok t) : Timed t := by
  cases action with
  | command command fork => exact timed.command (command_run run).2
  | poll =>
    obtain ⟨cmd, _, _, kernel, timeThis, ends⟩ := poll_cases run
    have sublist : (timedPids t.timedCmds).Sublist (timedPids s.timedCmds) := by
      rcases ends with ⟨_, _, _, same, _⟩ | ⟨_, _, _, _, same | ⟨_, it, _, same⟩⟩
      · exact same ▸ List.Sublist.refl _
      · exact same ▸ List.Sublist.refl _
      · exact same ▸ resetTimedCmd_pids it s
    apply timed.frame sublist _ timeThis
    rw [kernel]
    exact fun _ => (waitpid_reaps _ _).absent
  | wait reaped =>
    obtain ⟨_, behind, l, _, rfl, reaps, _⟩ := waitPipe_cases run
    refine timed.fades ?_ (leaveWait_timedCmds _ _) (leaveWait_timeThis _ _)
    rw [leaveWait_kernel]
    exact reaps.fades
  | ctrlZ =>
    obtain rfl := Except.ok.inj run
    rcases ctrlZ_cases s with ⟨same, _⟩ | ⟨cmd, l, jobId, _, phase, now, _, _, same, adds⟩
    · rwa [same]
    · have after : Timed { s with kernel := l } := timed.fades (Fades.same phase now) rfl rfl
      obtain ⟨timedCmds, timeThis⟩ := moveToBackground_timed cmd true { s with kernel := l }
      rw [← same] at timedCmds timeThis
      exact after.push timedCmds timeThis fun _ => adds.prunes.reaps.absent
  | ctrlC =>
    obtain rfl := Except.ok.inj run
    obtain ⟨l, same, phase, now, _⟩ := ctrlC_cases s
    exact same ▸ timed.fades (Fades.same phase now) rfl rfl
  | alarm =>
    obtain ⟨_, rfl, fades, _, sublist⟩ := alarm_run run
    exact timed.frame (timedPids_sublist sublist) fades.absent rfl
  | change pid status =>
    obtain ⟨process, _, _, rfl, fades⟩ := change_run run
    exact timed.fades fades rfl rfl
  | tick => exact Except.ok.inj run ▸ timed.frame (List.Sublist.refl _) (fun _ => Iff.rfl) rfl

end Timed

theorem start_timed (now : Int) : Timed (start now) :=
  ⟨fun _ listed => absurd listed List.not_mem_nil, List.nodup_nil, fun requested => absurd requested (by simp [start, timedCmd]),
    rfl⟩

end OperatingSystems.Smash
