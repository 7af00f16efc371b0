import OperatingSystems.Smash.Steps

/-!
# Job and process ids on the list

An entry takes the largest id and one, or the id of the job that `fg` took off
the list. While a job is in the foreground, its id and its process are those of
no other entry. The handler of Ctrl-Z adds an entry each time it runs, so that
two deliveries in one loop list a process twice.

A step makes the largest id larger by one at most, so that ids are values of `int` in
every run of fewer than 2^31 steps.
-/

namespace OperatingSystems.Smash

open Runs

variable {s t : Shell} {jobs rest : List JobEntry} {job : JobEntry} {cmd : ForegroundCmd} {pid : Int}

/-- Job ids are positive and, like process ids, not used twice. -/
structure Unique (jobs : List JobEntry) : Prop where
  positive : ∀ job ∈ jobs, 0 < job.jobId
  jobIds : (jobIds jobs).Nodup
  pids : (pids jobs).Nodup

namespace Unique

theorem sublist (unique : Unique jobs) (sublist : rest.Sublist jobs) : Unique rest where
  positive := fun job member => unique.positive job (sublist.subset member)
  jobIds := unique.jobIds.sublist (sublist.map JobEntry.jobId)
  pids := unique.pids.sublist (sublist.map JobEntry.pid)

theorem perm (unique : Unique jobs) (perm : rest.Perm jobs) : Unique rest where
  positive := fun job member => unique.positive job (perm.mem_iff.mp member)
  jobIds := (perm.map JobEntry.jobId).nodup_iff.mpr unique.jobIds
  pids := (perm.map JobEntry.pid).nodup_iff.mpr unique.pids

/-- Lists with the same ids. -/
theorem same (unique : Unique jobs) (samePids : Smash.pids rest = Smash.pids jobs)
    (sameIds : Smash.jobIds rest = Smash.jobIds jobs) : Unique rest where
  positive := by
    intro job member
    have listed : job.jobId ∈ Smash.jobIds rest := List.mem_map_of_mem member
    rw [sameIds] at listed
    obtain ⟨other, inJobs, same⟩ := List.mem_map.mp listed
    rw [← same]
    exact unique.positive other inJobs
  jobIds := by
    rw [sameIds]
    exact unique.jobIds
  pids := by
    rw [samePids]
    exact unique.pids

/-- One more entry, with ids of its own. -/
theorem add (unique : Unique jobs) (positive : 0 < job.jobId) (newId : job.jobId ∉ Smash.jobIds jobs)
    (newPid : job.pid ∉ Smash.pids jobs) : Unique (jobs ++ [job]) where
  positive := by
    intro e member
    rcases List.mem_append.mp member with listed | new
    · exact unique.positive e listed
    · rw [List.mem_singleton.mp new]
      exact positive
  jobIds := by
    rw [Smash.jobIds, List.map_append, List.nodup_append]
    refine ⟨unique.jobIds, by simp, ?_⟩
    intro jobId listed other new same
    rw [List.map_singleton, List.mem_singleton] at new
    exact newId (new ▸ same ▸ listed)
  pids := by
    rw [Smash.pids, List.map_append, List.nodup_append]
    refine ⟨unique.pids, by simp, ?_⟩
    intro pid listed other new same
    rw [List.map_singleton, List.mem_singleton] at new
    exact newPid (new ▸ same ▸ listed)

/-- The entries before and behind one of the list differ from it. -/
theorem others {front back : List JobEntry} (unique : Unique (front ++ job :: back)) :
    ∀ e ∈ front ++ back, e.jobId ≠ job.jobId ∧ e.pid ≠ job.pid := by
  have perm : (front ++ job :: back).Perm (job :: (front ++ back)) := List.perm_middle
  have first := unique.perm perm.symm
  have ids := first.jobIds
  have procs := first.pids
  rw [Smash.jobIds, List.map_cons, List.nodup_cons] at ids
  rw [Smash.pids, List.map_cons, List.nodup_cons] at procs
  intro e member
  constructor
  · intro same
    exact ids.1 (same ▸ List.mem_map_of_mem member)
  · intro same
    exact procs.1 (same ▸ List.mem_map_of_mem member)

end Unique

/-- The id after the largest is new. -/
theorem getMaxJobID_new (jobs : List JobEntry) : getMaxJobID jobs + 1 ∉ jobIds jobs := by
  intro listed
  obtain ⟨job, member, same⟩ := List.mem_map.mp listed
  have := le_getMaxJobID member
  omega

/-- A job in the foreground that Ctrl-Z stops is listed under its former id, and
only under that. -/
def Returns (s : Shell) : Prop :=
  ∀ former, s.mode = .foreground former → s.kernel.phase former.pid = .alive →
    (∃ job ∈ (ctrlZHandler s).jobsVec, job.pid = former.pid) ∧
      ∀ job ∈ (ctrlZHandler s).jobsVec, job.pid = former.pid → job.jobId = former.jobId

/-- Ctrl-Z is not delivered while the process in the foreground has an entry
already, unless `addJob` is about to remove that. -/
def Single : Action → Shell → Prop
  | .ctrlZ, s => ∀ cmd, s.foregroundCmd = some cmd →
      s.kernel.Waitable cmd.childPid → cmd.childPid ∉ pids (removeFinishedJobs s).jobsVec
  | _, _ => True

/-- The ids are in order, the processes on the list were started, and the job in
the foreground shares its id with none but its own entry. -/
structure Numbered (s : Shell) : Prop where
  unique : Unique s.jobsVec
  known : ∀ pid ∈ pids s.jobsVec, s.kernel.phase pid ≠ .absent
  former : ∀ former, s.mode = .foreground former →
    0 < former.jobId ∧ ∀ job ∈ s.jobsVec, job.jobId = former.jobId ↔ job.pid = former.pid

namespace Numbered

/-- Fewer entries, and nothing but time for the processes. -/
theorem frame (numbered : Numbered s) (sublist : t.jobsVec.Sublist s.jobsVec)
    (absent : ∀ pid, t.kernel.phase pid = .absent ↔ s.kernel.phase pid = .absent)
    (mode : t.mode = s.mode) : Numbered t where
  unique := numbered.unique.sublist sublist
  known := by
    intro pid listed
    rw [Ne, absent]
    exact numbered.known pid ((sublist.map JobEntry.pid).subset listed)
  former := by
    intro former inLoop
    obtain ⟨positive, own⟩ := numbered.former former (mode ▸ inLoop)
    exact ⟨positive, fun job member => own job (sublist.subset member)⟩

theorem fades (numbered : Numbered s) (fades : Fades s.kernel t.kernel) (jobsVec : t.jobsVec = s.jobsVec)
    (mode : t.mode = s.mode) : Numbered t :=
  numbered.frame (jobsVec ▸ List.Sublist.refl _) fades.absent mode

theorem removeFinishedJobs (numbered : Numbered s) : Numbered (removeFinishedJobs s) := by
  have prunes := removeFinishedJobs_prunes s
  exact numbered.frame prunes.sublist (fun _ => prunes.reaps.absent) rfl

/-- At the prompt the ids on the list are all that matters. -/
theorem atPrompt (unique : Unique t.jobsVec) (known : ∀ pid ∈ pids t.jobsVec, t.kernel.phase pid ≠ .absent)
    (prompt : t.mode = .prompt) : Numbered t :=
  ⟨unique, known, fun former inLoop => by simp [prompt] at inLoop⟩

/-- While a pipe waits no job is in the foreground. -/
theorem pipes (numbered : Numbered s) (fades : Fades s.kernel t.kernel) (jobsVec : t.jobsVec = s.jobsVec)
    (none : ∀ former, t.mode ≠ .foreground former) : Numbered t where
  unique := jobsVec ▸ numbered.unique
  known := by
    intro pid listed
    rw [Ne, fades.absent]
    exact numbered.known pid (jobsVec ▸ listed)
  former := fun former inLoop => absurd inLoop (none former)

/-- A new child in the background gets the next id. -/
theorem external {cmdLine : String} {isInBg : Bool} {fork : Option Int} (numbered : Numbered s)
    (prompt : s.mode = .prompt) (noJob : s.foregroundJobid = -1)
    (run : executeExternal cmdLine isInBg fork s = .ok t) : Numbered t := by
  -- The new process id is not on the list, where all processes were started.
  have started : ∀ child, s.kernel.table child = none → child ∉ pids s.jobsVec ∧
      ∀ pid ∈ pids s.jobsVec, (forked child s).kernel.phase pid ≠ .absent := by
    intro child fresh
    have absent : s.kernel.phase child = .absent := by
      simp [Kernel.phase, fresh]
    refine ⟨fun listed => numbered.known child listed absent, fun pid listed => ?_⟩
    rw [forked_phase]
    by_cases here : pid = child
    · rw [here, Function.update_self]
      simp
    · rw [Function.update_of_ne here]
      exact numbered.known pid listed
  rcases executeExternal_cases run with rfl | ⟨child, _, fresh, ⟨_, rfl⟩ | ⟨_, rfl⟩⟩
  · exact numbered
  · obtain ⟨newPid, known⟩ := started child fresh
    obtain ⟨jobId, adds⟩ := moveToBackground_adds ⟨child, cmdLine⟩ false (forked child s)
    have number := adds.number
    rw [show (forked child s).foregroundJobid = -1 from noJob, if_pos rfl] at number
    have sublist := adds.prunes.sublist
    have kept := numbered.unique.sublist sublist
    refine atPrompt ?_ ?_ (adds.mode.trans prompt)
    · rw [adds.jobs]
      apply kept.add
      · have := getMaxJobID_nonneg kept.positive
        simp only [number]
        omega
      · simp only [number]
        exact getMaxJobID_new _
      · exact fun listed => newPid ((sublist.map JobEntry.pid).subset listed)
    · intro pid listed
      rw [Ne, adds.prunes.reaps.absent]
      rw [adds.jobs, pids, List.map_append, List.mem_append] at listed
      rcases listed with old | new
      · exact known pid ((sublist.map JobEntry.pid).subset old)
      · simp only [List.map_singleton, List.mem_singleton] at new
        rw [new, forked_phase, Function.update_self]
        simp
  · obtain ⟨_, known⟩ := started child fresh
    refine ⟨?_, ?_, fun former inLoop => ?_⟩
    · simp only [awaiting, pushTimed_jobsVec]
      exact numbered.unique
    · simp only [awaiting, pushTimed_jobsVec, pushTimed_kernel]
      exact known
    · exact absurd inLoop (by simp [awaiting])

/-- The job that `fg` takes off the list shares its ids with none of the rest. -/
theorem fg {arg : Option Int} (numbered : Numbered s) : Numbered (executeFg arg s) := by
  rcases executeFg_cases arg s with same | ⟨i, job, front, back, l, found, phase, now, _, same⟩
  · rwa [same]
  · have sublist : (front ++ back).Sublist s.jobsVec := by
      rw [found.split]
      exact (List.sublist_cons_self job back).append_left front
    rw [same]
    refine ⟨numbered.unique.sublist sublist, ?_, ?_⟩
    · intro pid listed
      rw [phase]
      exact numbered.known pid ((sublist.map JobEntry.pid).subset listed)
    · rintro former inLoop
      obtain rfl := Mode.foreground.inj inLoop
      have differ := (found.split ▸ numbered.unique).others
      constructor
      · apply numbered.unique.positive
        simp [found.split]
      · intro e member
        obtain ⟨otherId, otherPid⟩ := differ e member
        exact ⟨fun same => absurd same otherId, fun same => absurd same otherPid⟩

theorem signals {signal : Int} {l : Kernel} (numbered : Numbered s) (prompt : s.mode = .prompt)
    (signals : Signals s job signal l jobs) : Numbered { s with kernel := l, jobsVec := jobs } := by
  refine atPrompt (numbered.unique.same signals.pids signals.jobIds) ?_ prompt
  intro pid listed
  rw [signals.pids] at listed
  rw [Ne, (kill_fades signals.kills).1.absent]
  exact numbered.known pid listed

/-- A command keeps the ids in order. -/
theorem command {command : Command} {fork : Option Int} (numbered : Numbered s) (attends : Attends s)
    (prompt : s.mode = .prompt) (run : executeCommand command fork s = .ok t) : Numbered t := by
  refine executeCommand_rule (I := fun s => Numbered s ∧ s.mode = .prompt ∧ s.foregroundJobid = -1)
    (J := Numbered) ?_ ?_ ?_ ?_ ?_ ?_ ?_ ?_ ?_ ⟨numbered, prompt, (attends.atPrompt prompt).2⟩ run
  · exact fun s holds => ⟨holds.1.removeFinishedJobs, holds.2⟩
  · exact fun s _ _ holds => ⟨holds.1.fades (Fades.same rfl rfl) rfl rfl, holds.2⟩
  · exact fun s holds => holds.1
  · exact fun s t _ _ holds run => holds.1.external holds.2.1 holds.2.2 run
  · rintro s ⟨numbered, prompt, _⟩
    have pruned := numbered.removeFinishedJobs
    have perm := List.perm_insertionSort (fun a b : JobEntry => a.jobId ≤ b.jobId)
      (Smash.removeFinishedJobs s).jobsVec
    refine atPrompt (t := printJobsList s) (pruned.unique.perm perm) ?_ prompt
    exact fun pid listed => pruned.known pid ((perm.map JobEntry.pid).mem_iff.mp listed)
  · rintro s signal jobId ⟨numbered, prompt, _⟩
    rcases executeKill_cases signal jobId s with same | ⟨job, l, jobs, signals, same⟩
    · rwa [same]
    · exact same ▸ numbered.signals prompt signals
  · exact fun s arg holds => holds.1.fg
  · rintro s arg ⟨numbered, prompt, _⟩
    rcases executeBg_cases arg s with same | ⟨job, l, jobs, signals, same⟩
    · rwa [same]
    · exact same ▸ numbered.signals prompt signals
  · exact fun s left right holds => holds.1.pipes (t := executePipe left right s) (Fades.refl _) rfl nofun

/-- The handler adds one entry for a process that has none. -/
theorem ctrlZ (numbered : Numbered s) (attends : Attends s) (single : Single .ctrlZ s) :
    Numbered (ctrlZHandler s) := by
  rcases ctrlZ_cases s with ⟨same, _⟩ | ⟨cmd, l, jobId, waited, phase, now, alarm, here, _, adds⟩
  · rwa [same]
  have newPid : cmd.childPid ∉ pids (Smash.removeFinishedJobs { s with kernel := l }).jobsVec := by
    have kept := single cmd waited (here.of_phase (congrFun phase _).symm)
    have same : (Smash.removeFinishedJobs { s with kernel := l }).jobsVec =
        (Smash.removeFinishedJobs s).jobsVec := removeFinishedLoop_phase phase
    rwa [same]
  have sublist := adds.prunes.sublist
  have kept := numbered.unique.sublist sublist
  have number := adds.number
  simp only at number
  -- The id is new: either the next one, or that of a job whose entry is gone.
  have newId : 0 < jobId ∧ jobId ∉ jobIds (Smash.removeFinishedJobs { s with kernel := l }).jobsVec ∧
      ∀ former, s.mode = .foreground former → former.jobId = jobId ∧ former.pid = cmd.childPid := by
    unfold Attends at attends
    cases mode : s.mode with
    | prompt =>
      rw [mode] at attends
      rw [attends.1] at waited
      exact absurd waited (by simp)
    | piping forked behind =>
      rw [mode] at attends
      rw [attends.1] at waited
      exact absurd waited (by simp)
    | external it =>
      rw [mode] at attends
      rw [if_pos attends.2] at number
      have := getMaxJobID_nonneg kept.positive
      refine ⟨by omega, number ▸ getMaxJobID_new _, by simp⟩
    | foreground former =>
      rw [mode] at attends
      obtain ⟨positive, own⟩ := numbered.former former mode
      rw [attends.2, if_neg (by omega)] at number
      rw [attends.1] at waited
      obtain rfl := Option.some.inj waited
      refine ⟨number ▸ positive, ?_, ?_⟩
      · intro listed
        obtain ⟨job, member, same⟩ := List.mem_map.mp listed
        have isOwn := (own job (sublist.subset member)).mp (same.trans number)
        exact newPid (List.mem_map.mpr ⟨job, member, isOwn⟩)
      · rintro other same
        obtain rfl := Mode.foreground.inj same
        exact ⟨number.symm, rfl⟩
  obtain ⟨positive, isNew, own⟩ := newId
  refine ⟨?_, ?_, ?_⟩
  · rw [adds.jobs]
    exact kept.add positive isNew newPid
  · intro pid listed
    rw [Ne, adds.prunes.reaps.absent]
    simp only [phase]
    rw [adds.jobs, pids, List.map_append, List.mem_append] at listed
    rcases listed with old | new
    · exact numbered.known pid ((sublist.map JobEntry.pid).subset old)
    · simp only [List.map_singleton, List.mem_singleton] at new
      rw [new, ← phase]
      exact (waitable_iff.mp here).1
  · intro former inLoop
    rw [adds.mode] at inLoop
    obtain ⟨sameId, samePid⟩ := own former inLoop
    refine ⟨sameId ▸ positive, ?_⟩
    intro job member
    rw [adds.jobs, List.mem_append] at member
    rcases member with old | new
    · exact (numbered.former former inLoop).2 job (sublist.subset old)
    · rw [List.mem_singleton.mp new]
      exact ⟨fun _ => samePid.symm, fun _ => sameId.symm⟩

/-- A step keeps the ids in order unless Ctrl-Z adds an entry twice. -/
theorem step {action : Action} (numbered : Numbered s) (attends : Attends s) (single : Single action s)
    (run : step action s = .ok t) : Numbered t := by
  cases action with
  | command command fork =>
    obtain ⟨prompt, run⟩ := command_run run
    exact numbered.command attends prompt run
  | poll =>
    obtain ⟨cmd, _, jobsVec, kernel, _, ⟨mode, _⟩ | ⟨prompt, _⟩⟩ := poll_cases run
    · apply numbered.fades _ jobsVec mode
      rw [kernel]
      exact (waitpid_reaps _ _).fades
    · refine atPrompt (jobsVec ▸ numbered.unique) ?_ prompt
      intro pid listed
      rw [kernel, Ne, (waitpid_reaps _ _).absent]
      exact numbered.known pid (jobsVec ▸ listed)
  | wait reaped =>
    obtain ⟨_, behind, l, _, rfl, reaps, _⟩ := waitPipe_cases run
    refine numbered.pipes ?_ (leaveWait_jobsVec _ _) (leaveWait_mode behind)
    rw [leaveWait_kernel]
    exact reaps.fades
  | ctrlZ =>
    obtain rfl := Except.ok.inj run
    exact numbered.ctrlZ attends single
  | ctrlC =>
    obtain rfl := Except.ok.inj run
    obtain ⟨l, same, phase, now, _⟩ := ctrlC_cases s
    exact same ▸ numbered.fades (Fades.same phase now) rfl rfl
  | alarm =>
    obtain ⟨_, rfl, fades, _⟩ := alarm_run run
    exact numbered.fades fades rfl rfl
  | change pid status =>
    obtain ⟨process, _, _, rfl, fades⟩ := change_run run
    exact numbered.fades fades rfl rfl
  | tick => exact Except.ok.inj run ▸ numbered.frame (List.Sublist.refl _) (fun _ => Iff.rfl) rfl

/-- A job in the foreground returns under its former id. -/
theorem returns (numbered : Numbered s) (attends : Attends s) : Returns s := by
  intro former inLoop alive
  unfold Attends at attends
  rw [inLoop] at attends
  obtain ⟨positive, own⟩ := numbered.former former inLoop
  rcases ctrlZ_cases s with ⟨_, gone⟩ | ⟨cmd, l, jobId, waited, _, _, _, _, _, adds⟩
  · have := gone _ attends.1
    simp [alive] at this
  · rw [attends.1] at waited
    obtain rfl := Option.some.inj waited
    have number := adds.number
    simp only [attends.2] at number
    rw [if_neg (by omega)] at number
    rw [adds.jobs]
    constructor
    · exact ⟨_, List.mem_append_right _ (List.mem_singleton.mpr rfl), rfl⟩
    · intro job member same
      rcases List.mem_append.mp member with old | new
      · exact (own job (adds.prunes.sublist.subset old)).mpr same
      · rw [List.mem_singleton.mp new]
        exact number

end Numbered

/-- When the handler adds an entry twice, the list shows it. -/
theorem single_of_unique {action : Action}
    (shows : Ends (fun t => Unique t.jobsVec ∧ Returns t) (fun _ => True) (step action s)) :
    Single action s := by
  cases action with
  | ctrlZ =>
    intro cmd waited here listed
    rcases ctrlZ_cases s with ⟨_, gone⟩ | ⟨other, l, jobId, same, phase, _, _, _, _, adds⟩
    · obtain ⟨notAbsent, notReaped⟩ := waitable_iff.mp here
      rcases gone cmd waited with absent | reaped
      · exact notAbsent absent
      · exact notReaped reaped
    · obtain rfl := Option.some.inj (waited.symm.trans same)
      have pids := (shows.reached (t := ctrlZHandler s) rfl).1.pids
      have kept : (removeFinishedJobs { s with kernel := l }).jobsVec = (removeFinishedJobs s).jobsVec :=
        removeFinishedLoop_phase phase
      rw [adds.jobs, kept, Smash.pids, List.map_append, List.nodup_append] at pids
      exact pids.2.2 cmd.childPid listed cmd.childPid (by simp) rfl
  | _ => trivial

theorem start_numbered (now : Int) : Numbered (start now) := by
  refine Numbered.atPrompt ⟨?_, List.nodup_nil, List.nodup_nil⟩ ?_ rfl
  · exact fun job member => absurd member List.not_mem_nil
  · exact fun pid listed => absurd listed List.not_mem_nil

/-- The ids of a run are always in order, and jobs return under their former
ids, exactly when Ctrl-Z never adds a process that has an entry. -/
theorem runs_unique_iff (now : Int) (actions : List Action) :
    Obeys step Single actions (start now) ↔
      ∀ n, Ends (fun s => Unique s.jobsVec ∧ Returns s) (fun _ => True) (smash now (actions.take n)) := by
  apply obeys_iff_shown (I := fun s => Attends s ∧ Numbered s)
  · exact fun s holds => ⟨holds.2.unique, holds.2.returns holds.1⟩
  · rintro action s ⟨attends, numbered⟩ single
    cases run : step action s with
    | ok t => exact ⟨attends.step run, numbered.step attends single run⟩
    | error stop => trivial
  · exact fun action s _ shows => single_of_unique shows
  · exact ⟨start_attends now, start_numbered now⟩

/-- The ids on the list, and that of the job in the foreground, are positive and at most the
number of steps. -/
structure Counted (n : Nat) (s : Shell) : Prop where
  jobs : ∀ jobId ∈ jobIds s.jobsVec, 0 < jobId ∧ jobId ≤ n
  foreground : s.foregroundJobid = -1 ∨ 0 < s.foregroundJobid ∧ s.foregroundJobid ≤ n

namespace Counted

variable {n : Nat}

/-- No new ids, and one step more. -/
theorem frame (counted : Counted n s) (jobs : ∀ jobId ∈ jobIds t.jobsVec, jobId ∈ jobIds s.jobsVec)
    (foreground : t.foregroundJobid = s.foregroundJobid) : Counted (n + 1) t where
  jobs := by
    intro jobId listed
    obtain ⟨positive, bound⟩ := counted.jobs jobId (jobs jobId listed)
    exact ⟨positive, by omega⟩
  foreground := by
    rw [foreground]
    rcases counted.foreground with none | ⟨positive, bound⟩
    · exact Or.inl none
    · exact Or.inr ⟨positive, by omega⟩

/-- The new entry has the next id, or that of the job in the foreground. -/
theorem adds {isStopped : Bool} {jobId : Int} (counted : Counted n s) (adds : Adds s cmd isStopped t rest jobId) :
    Counted (n + 1) t where
  jobs := by
    have kept : ∀ job ∈ rest, 0 < job.jobId ∧ job.jobId ≤ n := fun job member =>
      counted.jobs _ (List.mem_map_of_mem (adds.prunes.sublist.subset member))
    have low := getMaxJobID_nonneg fun job member => (kept job member).1
    have high := getMaxJobID_le (n := n) (by omega) fun job member => (kept job member).2
    intro other listed
    rw [adds.jobs, Smash.jobIds, List.map_append, List.mem_append] at listed
    rcases listed with old | new
    · obtain ⟨job, member, rfl⟩ := List.mem_map.mp old
      obtain ⟨positive, bound⟩ := kept job member
      exact ⟨positive, by omega⟩
    · rw [List.map_singleton, List.mem_singleton] at new
      have number := adds.number
      subst new
      rcases counted.foreground with none | ⟨positive, bound⟩
      · rw [if_pos none] at number
        exact ⟨by omega, by omega⟩
      · rw [if_neg (by omega)] at number
        exact ⟨by omega, by omega⟩
  foreground := by
    rw [adds.foregroundJobid]
    rcases counted.foreground with none | ⟨positive, bound⟩
    · exact Or.inl none
    · exact Or.inr ⟨positive, by omega⟩

theorem prunes (counted : Counted n s) : Counted n (removeFinishedJobs s) where
  jobs := fun jobId listed =>
    counted.jobs jobId (((removeFinishedJobs_prunes s).sublist.map JobEntry.jobId).subset listed)
  foreground := counted.foreground

theorem external {cmdLine : String} {isInBg : Bool} {fork : Option Int} (counted : Counted n s)
    (run : executeExternal cmdLine isInBg fork s = .ok t) : Counted (n + 1) t := by
  rcases executeExternal_cases run with rfl | ⟨child, _, _, ⟨_, rfl⟩ | ⟨_, rfl⟩⟩
  · exact counted.frame (fun _ => id) rfl
  · obtain ⟨jobId, joins⟩ := moveToBackground_adds ⟨child, cmdLine⟩ false (forked child s)
    have forks : Counted n (forked child s) := ⟨counted.jobs, counted.foreground⟩
    exact forks.adds joins
  · refine counted.frame (fun jobId listed => ?_) ?_
    · simp only [awaiting, pushTimed_jobsVec] at listed
      exact listed
    · simp only [awaiting, pushTimed_foregroundJobid]
      rfl

theorem signals {signal : Int} {l : Kernel} (counted : Counted n s) (signals : Signals s job signal l jobs) :
    Counted (n + 1) { s with kernel := l, jobsVec := jobs } :=
  counted.frame (fun _ listed => signals.jobIds ▸ listed) rfl

/-- The job that `fg` takes off the list keeps its id. -/
theorem fg {arg : Option Int} (counted : Counted n s) : Counted (n + 1) (executeFg arg s) := by
  rcases executeFg_cases arg s with same | ⟨i, job, front, back, l, found, _, _, _, same⟩
  · rw [same]
    exact counted.frame (fun _ => id) rfl
  · have own : job.jobId ∈ jobIds s.jobsVec := List.mem_map_of_mem (by simp [found.split])
    have others : (front ++ back).Sublist s.jobsVec := by
      rw [found.split]
      exact (List.sublist_cons_self job back).append_left front
    rw [same]
    constructor
    · intro jobId listed
      obtain ⟨positive, bound⟩ := counted.jobs jobId ((others.map JobEntry.jobId).subset listed)
      exact ⟨positive, by omega⟩
    · obtain ⟨positive, bound⟩ := counted.jobs _ own
      exact Or.inr ⟨positive, by simp only; omega⟩

theorem command {command : Command} {fork : Option Int} (counted : Counted n s)
    (run : executeCommand command fork s = .ok t) : Counted (n + 1) t := by
  refine executeCommand_rule (I := Counted n) (J := Counted (n + 1)) ?_ ?_ ?_ ?_ ?_ ?_ ?_ ?_ ?_ counted run
  · exact fun s counted => counted.prunes
  · exact fun s _ _ counted => ⟨counted.jobs, counted.foreground⟩
  · exact fun s counted => counted.frame (fun _ => id) rfl
  · exact fun s t _ _ counted run => counted.external run
  · intro s counted
    refine counted.prunes.frame (t := printJobsList s) (fun jobId listed => ?_) rfl
    exact ((List.perm_insertionSort _ _).map JobEntry.jobId).mem_iff.mp listed
  · intro s signal jobId counted
    rcases executeKill_cases signal jobId s with same | ⟨job, l, jobs, signals, same⟩
    · rw [same]
      exact counted.frame (fun _ => id) rfl
    · exact same ▸ counted.signals signals
  · exact fun s arg counted => counted.fg
  · intro s arg counted
    rcases executeBg_cases arg s with same | ⟨job, l, jobs, signals, same⟩
    · rw [same]
      exact counted.frame (fun _ => id) rfl
    · exact same ▸ counted.signals signals
  · exact fun s left right counted => counted.frame (t := executePipe left right s) (fun _ => id) rfl

/-- A step makes the largest id larger by one at most. -/
theorem step {action : Action} (counted : Counted n s) (run : step action s = .ok t) : Counted (n + 1) t := by
  cases action with
  | command command fork => exact counted.command (command_run run).2
  | poll =>
    obtain ⟨cmd, _, jobsVec, _, _, ⟨_, _, foregroundJobid, _⟩ | ⟨_, _, noJob, _⟩⟩ := poll_cases run
    · exact counted.frame (fun _ listed => jobsVec ▸ listed) foregroundJobid
    · refine ⟨?_, Or.inl noJob⟩
      rw [jobsVec]
      exact (counted.frame (t := s) (fun _ => id) rfl).jobs
  | wait reaped =>
    obtain ⟨_, behind, l, _, rfl, _⟩ := waitPipe_cases run
    refine counted.frame (fun _ listed => ?_) (leaveWait_foregroundJobid _ _)
    rwa [leaveWait_jobsVec] at listed
  | ctrlZ =>
    obtain rfl := Except.ok.inj run
    rcases ctrlZ_cases s with ⟨same, _⟩ | ⟨cmd, l, jobId, _, _, _, _, _, _, joins⟩
    · rw [same]
      exact counted.frame (fun _ => id) rfl
    · have stops : Counted n { s with kernel := l } := ⟨counted.jobs, counted.foreground⟩
      exact stops.adds joins
  | ctrlC =>
    obtain rfl := Except.ok.inj run
    obtain ⟨l, same, _⟩ := ctrlC_cases s
    exact same ▸ counted.frame (fun _ => id) rfl
  | alarm =>
    obtain ⟨_, rfl, _⟩ := alarm_run run
    exact counted.frame (fun _ => id) rfl
  | change pid status =>
    obtain ⟨process, _, _, rfl, _⟩ := change_run run
    exact counted.frame (fun _ => id) rfl
  | tick => exact Except.ok.inj run ▸ counted.frame (fun _ => id) rfl

end Counted

/-- No id of a run is larger than the number of its steps. -/
theorem runs_count (now : Int) (actions : List Action) :
    Ends (Counted actions.length) (fun _ => True) (smash now actions) := by
  have first : Counted ([] : List Action).length (start now) :=
    ⟨fun _ listed => absurd listed List.not_mem_nil, Or.inl rfl⟩
  refine execute_remembers (I := fun past => Counted past.length) (fun past action s counted _ => ?_) first
    (Obeys.always step actions (start now))
  cases run : step action s with
  | ok t =>
    rw [List.length_append, List.length_singleton]
    exact counted.step run
  | error stop => trivial

/-- Ctrl-Z twice before the loop runs again. -/
def stoppedTwice : List Action :=
  [.command (.external "sleep 100" false) (some 100), .ctrlZ, .ctrlZ]

/-- The process has two entries. -/
theorem run_repeats : ¬∀ now actions,
    Ends (fun s => Unique s.jobsVec ∧ Returns s) (fun _ => True) (smash now actions) := by
  intro all
  refine not_ends (fun s => decide (pids s.jobsVec).Nodup)
    (fun s holds => decide_eq_true holds.1.pids) ?_ (all 0 stoppedTwice)
  decide +kernel

end OperatingSystems.Smash
