import OperatingSystems.Smash.Reaping

/-!
# What the entries say of stopped processes

An entry is marked when the shell itself stops or continues its job. What
`removeFinishedJobs` learns of other stops it drops, so that the marks are right
as long as nobody else stops or continues a job on the list.
-/

namespace OperatingSystems.Smash

open Runs

variable {s t : Shell} {k l : Kernel} {jobs front back : List JobEntry} {job : JobEntry} {pid : Int}
  {fork : Option Int} {action : Action}

/-- After a call of `removeFinishedJobs` an entry is marked exactly when its process
is stopped. So `bg` refuses no stopped job, and `fg` continues each. -/
structure FlagsFit (s : Shell) : Prop where
  flags : ∀ job ∈ (removeFinishedJobs s).jobsVec,
    job.isStopped = (removeFinishedJobs s).kernel.isStopped job.pid
  refused : ∀ jobId i job, getJobById jobId (removeFinishedJobs s).jobsVec = some (i, job) →
    bgJob (some jobId) (removeFinishedJobs s).jobsVec = none →
    (removeFinishedJobs s).kernel.isStopped job.pid = false
  idle : bgJob none (removeFinishedJobs s).jobsVec = none →
    ∀ job ∈ (removeFinishedJobs s).jobsVec, (removeFinishedJobs s).kernel.isStopped job.pid = false
  continued : ∀ arg i job, fgJob arg (removeFinishedJobs s).jobsVec = some (i, job) →
    (removeFinishedJobs s).kernel.isStopped job.pid = true →
    (executeFg arg (removeFinishedJobs s)).kernel.table job.pid = some (.running (some .continued))

/-- Nobody but the shell stops or continues a process on the list. -/
def Undisturbed : Action → Shell → Prop
  | .change pid (.changed change), s => pid ∈ pids s.jobsVec →
      (s.kernel.table pid).bind (Process.change (.changed change)) = none
  | _, _ => True

instance (action : Action) (s : Shell) : Decidable (Undisturbed action s) := by
  unfold Undisturbed
  split
  all_goals infer_instance

/-- The marks of the living are right. -/
def Fits (s : Shell) : Prop :=
  ∀ job ∈ s.jobsVec, s.kernel.phase job.pid = .alive → job.isStopped = s.kernel.isStopped job.pid

namespace Fits

/-- Fewer entries, and those that live on are stopped as before, or not. -/
theorem frame (fits : Fits s) (jobsVec : ∀ job ∈ t.jobsVec, job ∈ s.jobsVec) (fades : Fades s.kernel t.kernel)
    (steady : Steady s.kernel t.kernel) : Fits t := by
  intro job member alive
  rw [steady job.pid alive]
  exact fits job (jobsVec job member) (fades.alive _ alive)

theorem removeFinishedJobs (fits : Fits s) : Fits (removeFinishedJobs s) := by
  have prunes := removeFinishedJobs_prunes s
  exact fits.frame (fun _ member => prunes.sublist.subset member) prunes.reaps.fades
    fun pid _ => removeFinishedLoop_isStopped _ _ pid

/-- What happens to a process that is not on the list does not matter. -/
theorem others (fits : Fits s) (jobsVec : t.jobsVec = s.jobsVec)
    (table : ∀ pid ∈ pids s.jobsVec, t.kernel.table pid = s.kernel.table pid) : Fits t := by
  intro job member alive
  rw [jobsVec] at member
  have same := table job.pid (List.mem_map_of_mem member)
  rw [phase_congr same] at alive
  rw [isStopped_congr same]
  exact fits job member alive

/-- An entry with the right mark joins the list. -/
theorem adds {cmd : ForegroundCmd} {isStopped : Bool} (fits : Fits s)
    (marked : s.kernel.phase cmd.childPid = .alive → isStopped = s.kernel.isStopped cmd.childPid) :
    Fits (moveToBackground cmd isStopped s) := by
  obtain ⟨jobId, adds⟩ := moveToBackground_adds cmd isStopped s
  intro job member alive
  rw [moveToBackground_kernel] at alive ⊢
  rw [adds.jobs, List.mem_append, List.mem_singleton] at member
  rcases member with kept | rfl
  · exact fits.removeFinishedJobs job kept alive
  · rw [(removeFinishedJobs_prunes s).reaps.alive] at alive
    exact (marked alive).trans (removeFinishedLoop_isStopped _ _ _).symm

theorem external {cmdLine : String} {isInBg : Bool} (fits : Fits s) (settled : Settled s)
    (run : executeExternal cmdLine isInBg fork s = .ok t) : Fits t := by
  rcases executeExternal_cases run with rfl | ⟨child, _, fresh, starts⟩
  · exact fits
  · have after : Fits (forked child s) := by
      apply fits.others (t := forked child s) rfl
      intro pid listed
      apply Function.update_of_ne
      rintro rfl
      exact settled.fresh fresh listed
    rcases starts with ⟨_, rfl⟩ | ⟨_, rfl⟩
    · apply after.adds
      intro _
      simp [forked, isStopped_set, Process.isStopped]
    · apply after.others
      · simp only [awaiting, pushTimed_jobsVec]
      · simp only [awaiting, pushTimed_kernel, implies_true]

/-- The entries before and behind one stay right, whatever happens to its process. -/
theorem rest (fits : Fits s) (settled : Settled s) (split : s.jobsVec = front ++ job :: back)
    (table : ∀ pid, pid ≠ job.pid → l.table pid = s.kernel.table pid) :
    ∀ e ∈ front ++ back, l.phase e.pid = .alive → e.isStopped = l.isStopped e.pid := by
  have distinct := settled.distinct
  rw [split, pids, List.map_append, List.map_cons] at distinct
  have others := List.nodup_middle.mp distinct
  rw [List.nodup_cons, ← List.map_append] at others
  intro e listed alive
  have same := table e.pid fun same => others.1 (same ▸ List.mem_map_of_mem listed)
  rw [phase_congr same] at alive
  rw [isStopped_congr same]
  apply fits e _ alive
  rw [split]
  exact List.perm_middle.mem_iff.mpr (List.mem_cons_of_mem _ listed)

/-- A job is sent a signal and marked by it. -/
theorem marks {signal : Int} (fits : Fits s) (settled : Settled s) (marks : Marks s job signal l front back)
    (jobsVec : t.jobsVec = front ++ { job with isStopped := marked signal job.isStopped } :: back)
    (kernel : t.kernel = l) : Fits t := by
  intro e member alive
  rw [kernel] at alive ⊢
  rw [jobsVec] at member
  rcases List.mem_cons.mp (List.perm_middle.mem_iff.mp member) with rfl | listed
  · have before := fits job (by simp [marks.split]) ((kill_fades marks.kills).1.alive _ alive)
    have differ : SIGSTOP ≠ SIGCONT := by decide
    rw [kill_isStopped marks.kills alive, ← before]
    simp only [marked]
    by_cases continued : signal = SIGCONT
    · rw [if_pos continued, if_pos continued, if_neg (continued ▸ differ.symm)]
    · rw [if_neg continued, if_neg continued]
  · exact fits.rest settled marks.split (fun _ differs => kill_table marks.kills differs) e listed alive

theorem fg {arg : Option Int} (fits : Fits s) (settled : Settled s) : Fits (executeFg arg s) := by
  rcases executeFg_found arg s with same | ⟨i, job, front, back, l, found, kernel, same⟩
  · rwa [same]
  · rw [same]
    apply fits.rest settled found.split
    intro pid differs
    split at kernel
    · exact kill_table kernel differs
    · rw [kernel]

/-- A command marks the jobs it sends signals to. -/
theorem command {command : Command} (fits : Fits s) (settled : Settled s)
    (run : executeCommand command fork s = .ok t) : Fits t := by
  refine executeCommand_rule (I := fun s => Fits s ∧ Settled s) (J := Fits) ?_ ?_ ?_ ?_ ?_ ?_ ?_ ?_ ?_
    ⟨fits, settled⟩ run
  · exact fun s holds => ⟨holds.1.removeFinishedJobs, holds.2.removeFinishedJobs⟩
  · exact fun s _ _ holds => ⟨holds.1.others rfl fun _ _ => rfl, holds.2.samePhase rfl rfl⟩
  · exact fun s holds => holds.1
  · exact fun s t _ _ holds run => holds.1.external holds.2 run
  · intro s holds
    refine holds.1.removeFinishedJobs.frame (t := printJobsList s) (fun job member => ?_) (Fades.refl _)
      fun _ _ => rfl
    exact (List.perm_insertionSort _ _).mem_iff.mp member
  · rintro s signal jobId ⟨fits, settled⟩
    rcases executeKill_marks signal jobId s with same | ⟨job, l, front, back, marks, same⟩
    · rwa [same]
    · exact same ▸ fits.marks settled marks rfl rfl
  · exact fun s arg holds => holds.1.fg holds.2
  · rintro s arg ⟨fits, settled⟩
    rcases executeBg_marks arg s with same | ⟨job, l, front, back, marks, same⟩
    · rwa [same]
    · exact same ▸ fits.marks settled marks rfl rfl
  · exact fun s left right holds => holds.1.others (t := executePipe left right s) rfl fun _ _ => rfl

end Fits

/-- What is known of the list when no process on it is reaped elsewhere. -/
structure Orderly (s : Shell) : Prop where
  settled : Settled s
  timed : Timed s
  attends : Attends s
  numbered : Numbered s

/-- A step that spares the processes on the list delivers no Ctrl-Z for one of them. -/
theorem Spares.single (spares : Spares action s) : Single action s := by
  cases action with
  | ctrlZ =>
    intro cmd waited waitable listed
    exact spares cmd waited waitable (((removeFinishedJobs_prunes s).sublist.map JobEntry.pid).subset listed)
  | _ => trivial

theorem Orderly.step (orderly : Orderly s) (spares : Spares action s) (run : step action s = .ok t) :
    Orderly t where
  settled := orderly.settled.step orderly.timed spares run
  timed := orderly.timed.step run
  attends := orderly.attends.step run
  numbered := orderly.numbered.step orderly.attends spares.single run

/-- A process that is stopped or continued was not before. -/
theorem change_isStopped {change : Change} {process next : Process}
    (changes : Process.change (.changed change) process = some next) :
    next.isStopped = !process.isStopped ∧ next.phase = .alive := by
  cases change with
  | stopped =>
    cases process with
    | running news =>
      obtain rfl := Option.some.inj changes
      exact ⟨rfl, rfl⟩
    | _ => exact absurd changes (by simp [Process.change])
  | continued =>
    cases process with
    | stopped news =>
      obtain rfl := Option.some.inj changes
      exact ⟨rfl, rfl⟩
    | _ => exact absurd changes (by simp [Process.change])

/-- A process that ends has ended. -/
theorem change_ended {ending : Ending} {process next : Process}
    (changes : Process.change (.ended ending) process = some next) : next.phase = .ended := by
  cases process with
  | running news =>
    obtain rfl := Option.some.inj changes
    rfl
  | stopped news =>
    cases ending with
    | exited => exact absurd changes (by simp [Process.change])
    | signaled signal =>
      obtain rfl := Option.some.inj changes
      rfl
  | _ => exact absurd changes (by simp [Process.change])

/-- A change that disturbs no job keeps the marks right. -/
theorem Fits.change {status : Status} (fits : Fits s) (undisturbed : Undisturbed (.change pid status) s)
    (run : Smash.step (.change pid status) s = .ok t) : Fits t := by
  simp only [Smash.step] at run
  split at run
  · next process changes =>
    obtain rfl := Except.ok.inj run
    intro job member alive
    by_cases here : job.pid = pid
    · cases status with
      | changed change =>
        have refused := undisturbed (here ▸ List.mem_map_of_mem member)
        exact absurd (changes.symm.trans refused) (by simp)
      | ended ending =>
        obtain ⟨former, _, ends⟩ := Option.bind_eq_some_iff.mp changes
        rw [phase_set, here, Function.update_self, change_ended ends] at alive
        exact absurd alive (by simp)
    · rw [phase_set, Function.update_of_ne here] at alive
      rw [isStopped_set, if_neg here]
      exact fits job member alive
  · exact absurd run (by simp)

/-- A step that disturbs no job keeps the marks right. -/
theorem Fits.step (fits : Fits s) (orderly : Orderly s) (spares : Spares action s)
    (undisturbed : Undisturbed action s) (run : Smash.step action s = .ok t) : Fits t := by
  cases action with
  | command command fork => exact fits.command orderly.settled (command_run run).2
  | poll =>
    obtain ⟨cmd, _, jobsVec, kernel, _⟩ := poll_cases run
    apply fits.frame
    · exact fun _ member => jobsVec ▸ member
    · rw [kernel]
      exact (waitpid_reaps _ _).fades
    · rw [kernel]
      exact fun pid _ => waitpid_isStopped _ _ pid
  | wait reaped =>
    obtain ⟨_, behind, l, _, rfl, reaps, _, steady⟩ := waitPipe_cases run
    apply fits.frame
    · rw [leaveWait_jobsVec]
      exact fun _ member => member
    · rw [leaveWait_kernel]
      exact reaps.fades
    · rw [leaveWait_kernel]
      exact fun pid _ => steady pid
  | ctrlZ =>
    obtain rfl := Except.ok.inj run
    unfold ctrlZHandler
    split
    · exact fits
    · next cmd waited =>
      split
      · exact fits
      · next l kills =>
        have here : s.kernel.Waitable cmd.childPid := by
          by_contra refused
          rw [waitable_iff, not_and_or, not_not, not_not] at refused
          rw [kill_gone refused] at kills
          exact absurd kills (by simp)
        have after : Fits { s with kernel := l } := by
          apply fits.others (t := { s with kernel := l }) rfl
          intro pid listed
          apply kill_table kills
          rintro rfl
          exact spares cmd waited here listed
        apply after.adds
        intro alive
        rw [kill_isStopped kills alive]
        rfl
  | ctrlC =>
    obtain rfl := Except.ok.inj run
    unfold ctrlCHandler
    split
    · exact fits
    · split
      · exact fits
      · next cmd waited _ l kills =>
        obtain ⟨fades, _⟩ := kill_fades kills
        refine fits.frame (t := { s with kernel := l }) (fun _ => id) fades fun pid alive => ?_
        by_cases here : pid = cmd.childPid
        · subst here
          rw [kill_isStopped kills alive]
          rfl
        · exact isStopped_congr (kill_table kills here)
  | alarm =>
    obtain ⟨_, rfl, fades, _⟩ := alarm_run run
    exact fits.frame (t := killTimedCmmands _) (fun _ => id) fades
      (killTimedLoop_steady { s.kernel with alarm := none } s.timedCmds)
  | change pid status =>
    exact fits.change undisturbed run
  | tick => exact Except.ok.inj run ▸ fits.others rfl fun _ _ => rfl

/-- Right marks are what `bg` and `fg` need. -/
theorem Fits.flagsFit (fits : Fits s) (orderly : Orderly s) : FlagsFit s := by
  have living : ∀ job ∈ (Smash.removeFinishedJobs s).jobsVec,
      (Smash.removeFinishedJobs s).kernel.phase job.pid = .alive := by
    intro job member
    rw [(removeFinishedJobs_prunes s).reaps.alive]
    rw [orderly.settled.exactly, List.mem_filter] at member
    simpa using member.2
  have flags : ∀ job ∈ (Smash.removeFinishedJobs s).jobsVec,
      job.isStopped = (Smash.removeFinishedJobs s).kernel.isStopped job.pid :=
    fun job member => fits.removeFinishedJobs job member (living job member)
  refine ⟨flags, fun jobId i job found refused => ?_, fun idle job member => ?_,
    fun arg i job found stopped => ?_⟩
  · obtain ⟨_, front, back, place⟩ := getJobById_found found
    rw [← flags job (by simp [place.split])]
    simpa [bgJob, found] using refused
  · rw [← flags job member]
    -- The last stopped job is found when there is one, as job ids are positive.
    by_contra marked
    rw [Bool.not_eq_false] at marked
    obtain ⟨⟨i, best⟩, found⟩ := maxElement_some stoppedLessThan (List.ne_nil_of_mem member)
    have largest := (maxElement_found _ stoppedLessThan_orders found).2 job member
    have positive := orderly.numbered.unique.positive job ((removeFinishedJobs_prunes s).sublist.subset member)
    rw [if_pos marked] at largest
    have stopped : best.isStopped = true := by
      by_contra unmarked
      rw [if_neg unmarked] at largest
      omega
    rw [if_pos stopped] at largest
    have named : best.jobId ≠ 0 := by omega
    simp [bgJob, getLastStoppedJob, found, Option.filter, stopped, named] at idle
  · obtain ⟨front, back, place⟩ := fgJob_found found
    have member : job ∈ (Smash.removeFinishedJobs s).jobsVec := by simp [place.split]
    have marked := (flags job member).trans stopped
    obtain ⟨l, kills, _⟩ := kill_alive SIGCONT (living job member)
    have runs : executeFg arg (Smash.removeFinishedJobs s) =
        bringToForeground job { Smash.removeFinishedJobs s with kernel := l } := by
      simp [executeFg, found, marked, kills]
    rw [runs]
    exact kill_continues kills stopped

/-- A job that is stopped or continued without the shell has the wrong mark. -/
theorem Fits.exposes (fits : Fits s) (orderly : Orderly s) (spares : Spares action s)
    (shows : Ends FlagsFit (fun _ => True) (Smash.step action s)) : Undisturbed action s := by
  cases action with
  | change pid status =>
    cases status with
    | changed change =>
      intro listed
      by_contra possible
      obtain ⟨next, changes⟩ := Option.ne_none_iff_exists'.mp possible
      have run : Smash.step (.change pid (.changed change)) s = .ok { s with kernel := s.kernel.set pid next } := by
        simp only [Smash.step, changes]
      have after := orderly.step spares run
      have fit := shows.reached run
      obtain ⟨former, found, becomes⟩ := Option.bind_eq_some_iff.mp changes
      obtain ⟨flips, lives⟩ := change_isStopped becomes
      obtain ⟨job, member, rfl⟩ := List.mem_map.mp listed
      have kept : job ∈ (Smash.removeFinishedJobs { s with kernel := s.kernel.set job.pid next }).jobsVec := by
        rw [after.settled.exactly, List.mem_filter]
        exact ⟨member, by simp [phase_set, lives]⟩
      have wrong := fit.flags job kept
      have right := fits job member (change_phase changes).1
      simp only [Smash.removeFinishedJobs, removeFinishedLoop_isStopped, isStopped_set, if_true, flips] at wrong
      rw [right] at wrong
      simp [Kernel.isStopped, found] at wrong
    | ended ending => trivial
  | _ => trivial

/-- In a run in which no process on the list is reaped elsewhere, the marks are right
throughout exactly when nobody but the shell stops or continues a job. -/
theorem runs_flag_iff (now : Int) (actions : List Action) (spares : Obeys step Spares actions (start now)) :
    Obeys step Undisturbed actions (start now) ↔
      ∀ n, Ends FlagsFit (fun _ => True) (smash now (actions.take n)) := by
  refine obeys_iff_given (I := fun s => Orderly s ∧ Fits s) (fun s holds => holds.2.flagsFit holds.1) ?_
    (fun action s holds spares shows => holds.2.exposes holds.1 spares shows) ⟨?_, ?_⟩ spares
  · rintro action s ⟨orderly, fits⟩ spares undisturbed
    cases run : step action s with
    | ok t => exact ⟨orderly.step spares run, fits.step orderly spares undisturbed run⟩
    | error stop => trivial
  · exact ⟨start_settled now, start_timed now, start_attends now, start_numbered now⟩
  · exact fun job member => absurd member List.not_mem_nil

/-- A job is stopped and continued by the shell. -/
theorem runs_flag_iff_sample : Obeys step Undisturbed
    [.command (.external "sleep 100" false) (some 100), .ctrlZ, .poll, .command (.bg none) none,
      .command (.kill SIGSTOP 1) none, .command (.fg (some 1)) none] (start 0) ↔
    ∀ n, Ends FlagsFit (fun _ => True) (smash 0 (List.take n
      [.command (.external "sleep 100" false) (some 100), .ctrlZ, .poll, .command (.bg none) none,
        .command (.kill SIGSTOP 1) none, .command (.fg (some 1)) none])) :=
  runs_flag_iff 0 _ (by decide +kernel)

/-- A job in the background stops itself. -/
def stoppedItself : List Action :=
  [.command (.external "sleep 100 &" true) (some 100), .change 100 (.changed .stopped)]

/-- Its entry does not say so, after `removeFinishedJobs` has been told. -/
theorem run_misses_stop : ¬∀ now actions, Ends FlagsFit (fun _ => True) (smash now actions) := by
  intro all
  refine not_ends (fun s => (removeFinishedJobs s).jobsVec.all fun job =>
    job.isStopped = (removeFinishedJobs s).kernel.isStopped job.pid) (fun s fit => ?_) ?_ (all 0 stoppedItself)
  · exact List.all_eq_true.mpr fun job member => decide_eq_true (fit.flags job member)
  · decide +kernel

end OperatingSystems.Smash
