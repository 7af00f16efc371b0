import OperatingSystems.Smash.JobCommands
import OperatingSystems.Smash.Tracking
import OperatingSystems.Smash.Uniqueness

/-!
# Sessions

A session is what is typed at the prompt, as text, and what happens between. Each
line is the command of the job control that its text stands for, so that what holds of
its runs holds of sessions: the ids that `jobs` prints are those that `kill` and `fg`
take, and `quit kill` leaves no child behind.
-/

namespace OperatingSystems.Smash

open Texts Runs

/-- What happens in a session: a line that is typed, with what is decided about it from
outside and the result of its `fork`, or a step that no line makes. -/
inductive Event where
  | line (terminal : Terminal) (cmdLine : Text) (fork : Option Int)
  | meanwhile (action : Action)

/-- A line is executed with as much fuel as it may need. -/
def typeLine (terminal : Terminal) (fork : Option Int) (cmdLine : Text) (s : Shell) : Option Ran :=
  runLine terminal fork (cmdLine.length + 1) cmdLine s

/-- The command that a line stands for. -/
def typedCommand (terminal : Terminal) (cmdLine : Text) : Option Command :=
  lineCommand terminal (cmdLine.length + 1) cmdLine

/-- One step of a session. -/
def sessionStep (event : Event) (s : Shell) : Except Stop Shell :=
  match event with
  | .line terminal cmdLine fork =>
    if s.mode = .prompt then
      match typeLine terminal fork cmdLine s with
      | none => .error .disabled
      | some ran => ran.result
    else .error .disabled
  | .meanwhile (.command _ _) => .error .disabled
  | .meanwhile action => step action s

/-- A session from the start of the shell. -/
def session (now : Int) (events : List Event) : Except Stop Shell :=
  Runs.execute sessionStep events (start now)

/-- An event is a step of the job control: a line is the command that it stands for. -/
inductive Event.Does : Event → Action → Prop
  | line {terminal : Terminal} {cmdLine : Text} {command : Command} (fork : Option Int)
    (typed : typedCommand terminal cmdLine = some command) :
    Does (.line terminal cmdLine fork) (.command command fork)
  | meanwhile (action : Action) : Does (.meanwhile action) action

/-- A condition on the steps of the job control that commands satisfy, for the events. -/
def Event.Obeys (guard : Action → Shell → Prop) : Event → Shell → Prop
  | .line _ _ _, _ => True
  | .meanwhile action, s => guard action s

variable {terminal : Terminal} {fork : Option Int} {now : Int} {event : Event} {events : List Event}
  {s t : Shell} {guard : Action → Shell → Prop} {jobs : List JobEntry} {job : JobEntry} {pid : Int}

/-- An event that is possible now is a step of the job control, also when it ends the shell. -/
theorem sessionStep_does (enabled : sessionStep event s ≠ .error .disabled) :
    ∃ action, event.Does action ∧ step action s = sessionStep event s := by
  unfold sessionStep at enabled ⊢
  split
  · next terminal cmdLine fork =>
    split
    · next prompt =>
      split
      · next undefined => simp [prompt, undefined] at enabled
      · next ran typed =>
        obtain ⟨command, stands, runs⟩ := runLine_refines typed
        exact ⟨_, .line fork stands, (if_pos prompt).trans runs⟩
    · next waits => simp [waits] at enabled
  · exact absurd rfl enabled
  · next action _ => exact ⟨action, .meanwhile action, rfl⟩

/-- A session is a run of the job control; what its events obey, the run obeys. -/
theorem session_run (commands : ∀ command fork s, guard (.command command fork) s)
    (obeys : Runs.Obeys sessionStep (Event.Obeys guard) events (start now))
    (reached : session now events = .ok s) : ∃ actions, List.Forall₂ Event.Does events actions ∧
      Runs.Obeys step guard actions (start now) ∧ smash now actions = .ok s := by
  refine execute_matches (fun event s t allowed run => ?_) obeys reached
  obtain ⟨action, does, same⟩ := sessionStep_does (show sessionStep event s ≠ .error .disabled by simp [run])
  refine ⟨action, does, ?_, same.trans run⟩
  cases does with
  | line fork typed => exact commands _ fork s
  | meanwhile action => exact allowed

/-- A session that ends the shell is a run of the job control up to its end. -/
theorem session_exits (exited : session now events = .error .exited) :
    ∃ n actions, List.Forall₂ Event.Does (events.take n) actions ∧ smash now actions = .error .exited := by
  refine execute_stops (fun event s t run => ?_) (fun event s run => ?_) exited
  all_goals
    obtain ⟨action, does, same⟩ := sessionStep_does (show sessionStep event s ≠ .error .disabled by simp [run])
    exact ⟨action, does, same.trans run⟩

/-- Every session that is typed as text is a run of the job control, event by event; one that
ends the shell is a run that does, up to its end. -/
theorem session_refines (now : Int) (events : List Event) :
    (∀ s, session now events = .ok s →
      ∃ actions, List.Forall₂ Event.Does events actions ∧ smash now actions = .ok s) ∧
    (session now events = .error .exited →
      ∃ n actions, List.Forall₂ Event.Does (events.take n) actions ∧ smash now actions = .error .exited) := by
  refine ⟨fun s reached => ?_, session_exits⟩
  have always : Runs.Obeys sessionStep (Event.Obeys fun _ _ => True) events (start now) :=
    Obeys.mono (fun event s _ => by cases event <;> trivial) (Obeys.always _ _ _)
  obtain ⟨actions, does, -, run⟩ := session_run (fun _ _ _ => trivial) always reached
  exact ⟨actions, does, run⟩

/-- A terminal on which every call succeeds and whole seconds are printed. -/
def plainTerminal : Terminal := ⟨fun _ _ => none, true, true, printInt⟩

/-- A background command and a look at the list. -/
def sleeping : List Event :=
  [.line plainTerminal "sleep 100 &".toList (some 100), .line plainTerminal "jobs".toList none]

theorem sleeping_reaches : ∃ s, session 0 sleeping = .ok s ∧ s.mode = .prompt := by
  have reaches : (session 0 sleeping).toOption.map Shell.mode = some .prompt := by decide +kernel
  cases result : session 0 sleeping with
  | ok s =>
    rw [result] at reaches
    exact ⟨s, rfl, Option.some.inj reaches⟩
  | error stop =>
    rw [result] at reaches
    exact absurd reaches (by simp [Except.toOption])

/-- The shell ends at a line with `quit`. -/
theorem quitting_exits : session 0 [.line plainTerminal "quit".toList none] = .error .exited := by
  have stops : Runs.fault (session 0 [.line plainTerminal "quit".toList none]) = some .exited := by decide +kernel
  cases result : session 0 [.line plainTerminal "quit".toList none] with
  | ok s =>
    rw [result] at stops
    exact absurd stops (by simp [Runs.fault])
  | error stop =>
    rw [result] at stops
    exact congrArg Except.error (Option.some.inj stops)

theorem session_refines_sample :
    (∃ s actions, List.Forall₂ Event.Does sleeping actions ∧ smash 0 actions = .ok s) ∧
    ∃ n actions, List.Forall₂ Event.Does
      (([.line plainTerminal "quit".toList none] : List Event).take n) actions ∧
        smash 0 actions = .error .exited := by
  obtain ⟨s, reached, -⟩ := sleeping_reaches
  exact ⟨⟨s, (session_refines 0 sleeping).1 s reached⟩, (session_refines 0 _).2 quitting_exits⟩

/-- Typed lines satisfy every condition on what happens meanwhile. -/
theorem sleeping_obeys (guard : Action → Shell → Prop) :
    Runs.Obeys sessionStep (Event.Obeys guard) sleeping (start 0) := by
  refine Obeys.of_forall fun event member s => ?_
  simp only [sleeping, List.mem_cons, List.not_mem_nil, or_false] at member
  rcases member with rfl | rfl <;> trivial

/-- The id that stands in a line of `jobs`. -/
def shownId (line : Text) : Text := (line.drop 1).takeWhile (· ≠ ']')

theorem jobLine_starts (terminal : Terminal) (now : Int) (job : JobEntry) :
    ∃ rest, jobLine terminal now job = '[' :: (printInt job.jobId ++ ']' :: rest) := by
  unfold jobLine
  simp only [List.append_assoc]
  exact ⟨_, rfl⟩

/-- What is printed of a positive id is a numeral, and stands in the line of its job. -/
theorem shownId_jobLine (positive : 0 < job.jobId) :
    shownId (jobLine terminal now job) = printUnsigned job.jobId.toNat := by
  have plain : ∀ c ∈ printUnsigned job.jobId.toNat, decide (c ≠ ']') = true := fun c member => by
    have digit := (printUnsigned_numeral _).2 c member
    refine decide_eq_true ?_
    rintro rfl
    exact absurd digit (by decide)
  have shown : printInt job.jobId = printUnsigned job.jobId.toNat := by
    rw [printInt, if_neg (by omega)]
    congr 1
    omega
  obtain ⟨rest, starts⟩ := jobLine_starts terminal now job
  rw [shownId, starts, shown, List.drop_succ_cons, List.drop_zero, List.takeWhile_append_of_pos plain]
  simp

/-- On a list without repetition every job is found by its id. -/
theorem getJobById_member (unique : (jobIds jobs).Nodup) (member : job ∈ jobs) :
    ∃ i, getJobById job.jobId jobs = some (i, job) := by
  induction jobs with
  | nil => exact absurd member List.not_mem_nil
  | cons head rest inductionHypothesis =>
    obtain ⟨fresh, unique⟩ := List.nodup_cons.mp unique
    unfold getJobById
    rcases List.mem_cons.mp member with rfl | member
    · exact ⟨0, if_pos rfl⟩
    · have other : head.jobId ≠ job.jobId := fun same =>
        fresh (same ▸ List.mem_map_of_mem member)
      obtain ⟨i, found⟩ := inductionHypothesis unique member
      exact ⟨i + 1, by rw [if_neg other, found]; rfl⟩

/-- The list that is printed is in the order of its ids. -/
theorem printJobsList_ascending (unique : Unique s.jobsVec) :
    Unique (printJobsList s).jobsVec ∧ (printJobsList s).jobsVec.Pairwise fun a b => a.jobId < b.jobId := by
  have pruned := unique.sublist (removeFinishedJobs_prunes s).sublist
  have sorted := pruned.perm (List.perm_insertionSort (fun a b : JobEntry => a.jobId ≤ b.jobId) _)
  refine ⟨sorted, ?_⟩
  have order : (printJobsList s).jobsVec.Pairwise fun a b => a.jobId ≤ b.jobId :=
    List.pairwise_insertionSort _ _
  have distinct : (printJobsList s).jobsVec.Pairwise fun a b => a.jobId ≠ b.jobId :=
    List.pairwise_map.mp sorted.jobIds
  exact (order.and distinct).imp fun both => lt_of_le_of_ne both.1 both.2

/-- A job that lives is still found when the next line is executed. -/
theorem survives (unique : Unique s.jobsVec) (member : job ∈ s.jobsVec) (alive : s.kernel.phase job.pid = .alive) :
    (∃ i, getJobById job.jobId (removeFinishedJobs s).jobsVec = some (i, job)) ∧
      (removeFinishedJobs s).kernel.phase job.pid = .alive := by
  have prunes := removeFinishedJobs_prunes s
  exact ⟨getJobById_member (unique.sublist prunes.sublist).jobIds (prunes.living job member alive),
    prunes.reaps.alive.mpr alive⟩

/-- A numeral is no blank, no operator and no sign. -/
theorem numeral_plain {n : Nat} {c : Char} (member : c ∈ printUnsigned n) :
    (c ≠ '>' ∧ c ≠ '|' ∧ c ≠ '&') ∧ isSpace c = false := by
  have digit := (printUnsigned_numeral n).2 c member
  refine ⟨⟨?_, ?_, ?_⟩, isSpace_digit digit⟩ <;>
    · rintro rfl
      exact absurd digit (by decide)

theorem numeral_solid (n : Nat) : ∃ c ∈ printUnsigned n, isSpace c = false := by
  obtain ⟨c, more, starts⟩ := List.exists_cons_of_ne_nil (printUnsigned_numeral n).1
  exact ⟨c, by simp [starts], (numeral_plain (n := n) (by simp [starts])).2⟩

theorem words_numeral (n : Nat) : words isSpace (printUnsigned n) = [printUnsigned n] :=
  words_word (printUnsigned_numeral n).1 fun _ member => (numeral_plain member).2

/-- The line that sends a signal to a job. -/
def killLine (signal : Nat) (jobId : Text) : Text :=
  "kill".toList ++ ' ' :: ('-' :: printUnsigned signal ++ ' ' :: jobId)

/-- The line that brings a job to the foreground. -/
def fgLine (jobId : Text) : Text := "fg".toList ++ ' ' :: jobId

theorem createCommand_fgLine {jobId : Nat} (fits : jobId < 2 ^ 31) :
    ∃ base, createCommand (fgLine (printUnsigned jobId)) = some (.builtIn .fg base) ∧
      base.args = ["fg".toList, printUnsigned jobId] := by
  have size : (printUnsigned jobId).length ≤ 10 := length_printUnsigned (by decide) (by omega)
  refine ⟨_, createCommand_builtIn (by decide +kernel) (by decide +kernel) (by decide +kernel)
    (by decide +kernel) (numeral_solid jobId) (fun c member => (numeral_plain member).1) ?_ ?_, ?_⟩
  · rw [words_numeral]
    exact (by decide : 1 + 1 < commandMaxArgs)
  · rw [List.length_append, List.length_cons]
    have name : ("fg".toList).length = 2 := by decide +kernel
    omega
  · rw [words_numeral]

theorem createCommand_killLine {signal jobId : Nat} (high : signal < 32) (fits : jobId < 2 ^ 31) :
    ∃ base, createCommand (killLine signal (printUnsigned jobId)) = some (.builtIn .kill base) ∧
      base.args = ["kill".toList, '-' :: printUnsigned signal, printUnsigned jobId] := by
  have size : (printUnsigned jobId).length ≤ 10 := length_printUnsigned (by decide) (by omega)
  have small : (printUnsigned signal).length ≤ 2 := length_printUnsigned (by decide) (by omega)
  have dashed : ∀ c ∈ '-' :: printUnsigned signal, (c ≠ '>' ∧ c ≠ '|' ∧ c ≠ '&') ∧ isSpace c = false := by
    intro c member
    rcases List.mem_cons.mp member with rfl | member
    · decide
    · exact numeral_plain member
  have split : words isSpace ('-' :: printUnsigned signal ++ ' ' :: printUnsigned jobId) =
      ['-' :: printUnsigned signal, printUnsigned jobId] := by
    rw [words_append (by decide), words_word (List.cons_ne_nil _ _) fun c member => (dashed c member).2,
      words_numeral]
    rfl
  refine ⟨_, createCommand_builtIn (by decide +kernel) (by decide +kernel) (by decide +kernel)
    (by decide +kernel) ⟨'-', List.mem_cons_self, by decide⟩ ?_ ?_ ?_, ?_⟩
  · intro c member
    rcases List.mem_append.mp member with first | second
    · exact (dashed c first).1
    · rcases List.mem_cons.mp second with rfl | second
      · decide
      · exact (numeral_plain second).1
  · rw [split]
    exact (by decide : 2 + 1 < commandMaxArgs)
  · have name : ("kill".toList).length = 4 := by decide +kernel
    simp only [List.length_append, List.length_cons]
    omega
  · rw [split]

/-- What a job that was printed answers to: a signal that is typed with its id reaches its
process, and `fg` with its id brings it to the foreground. -/
structure Answers (terminal : Terminal) (fork : Option Int) (s : Shell) (job : JobEntry) : Prop where
  kill : ∀ signal : Nat, 0 < signal → signal < 32 → ∃ t : Shell,
    typeLine terminal fork (killLine signal (shownId (jobLine terminal s.kernel.now job))) s =
        some ((t.reports (.out ("signal number ".toList ++ printInt signal ++ " was sent to pid ".toList ++
          printInt job.pid))).behind s.removalMessages) ∧
      (removeFinishedJobs s).kernel.kill job.pid signal = some t.kernel
  fg : ∃ t : Shell, typeLine terminal fork (fgLine (shownId (jobLine terminal s.kernel.now job))) s =
      some ((t.reports (shownJob job)).behind s.removalMessages) ∧ t.foregroundCmd = some ⟨job.pid, job.cmdLine⟩

theorem executeKill_kernel {i : Nat} {signal : Int} {kernel : Kernel} (named : job.jobId ≠ 0) (low : 1 ≤ signal)
    (high : signal ≤ 31) (found : getJobById job.jobId s.jobsVec = some (i, job))
    (reaches : s.kernel.kill job.pid signal = some kernel) :
    (executeKill signal job.jobId s).kernel = kernel := by
  unfold executeKill
  rw [if_neg (by omega), found]
  simp only [reaches]

theorem executeFg_foreground {i : Nat} (found : getJobById job.jobId s.jobsVec = some (i, job))
    (alive : s.kernel.phase job.pid = .alive) :
    foreground (some job.jobId) job s = (executeFg (some job.jobId) s).reports (shownJob job) ∧
      (executeFg (some job.jobId) s).foregroundCmd = some ⟨job.pid, job.cmdLine⟩ := by
  obtain ⟨kernel, reaches, -⟩ := kill_alive SIGCONT alive
  unfold foreground executeFg fgJob
  simp only [found, reaches]
  constructor
  · simp
  · split <;> rfl

/-- A living job with an id that is an `int` answers to what is printed of it. -/
theorem answers (terminal : Terminal) (fork : Option Int) (unique : Unique s.jobsVec) (member : job ∈ s.jobsVec)
    (fits : job.jobId < 2 ^ 31) (alive : s.kernel.phase job.pid = .alive) : Answers terminal fork s job := by
  have positive := unique.positive job member
  obtain ⟨⟨i, found⟩, lives⟩ := survives unique member alive
  have id : ((job.jobId.toNat : Nat) : Int) = job.jobId := Int.toNat_of_nonneg (by omega)
  have small : job.jobId.toNat < 2 ^ 31 := by omega
  have named := found
  rw [← id] at named
  constructor
  · intro signal low high
    obtain ⟨kernel, reaches, -⟩ := kill_alive signal lives
    obtain ⟨base, made, args⟩ := createCommand_killLine high small
    have reached := executeKill_kernel (by omega) (by omega) (by omega) found reaches
    refine ⟨executeKill signal job.jobId (removeFinishedJobs s), ?_, by rw [reached, reaches]⟩
    rw [shownId_jobLine positive, typeLine, runLine, made]
    simp only [args, killCommand_typed (show 0 < job.jobId.toNat by omega) small low high named reaches, id,
      Option.map_some]
  · obtain ⟨base, made, args⟩ := createCommand_fgLine small
    obtain ⟨shows, brought⟩ := executeFg_foreground found lives
    refine ⟨executeFg (some job.jobId) (removeFinishedJobs s), ?_, brought⟩
    rw [shownId_jobLine positive, typeLine, runLine, made]
    simp only [args, fgCommand_typed small named, id, shows, Option.map_some]

theorem typeLine_jobs (terminal : Terminal) (fork : Option Int) (s : Shell) :
    typeLine terminal fork "jobs".toList s =
      some ((jobsCommand terminal (removeFinishedJobs s)).behind s.removalMessages) := by
  have made : createCommand "jobs".toList =
      some (.builtIn .jobs ⟨["jobs".toList], "jobs".toList, "jobs".toList⟩) := by decide +kernel
  rw [typeLine, runLine, made]
  rfl

/-- In every session in which Ctrl-Z adds no process that has an entry already, `jobs` prints
the list in the order of its ids, behind what the removal of finished jobs writes, and each
job of it that lives answers to what was printed. -/
theorem jobs_answer (terminal : Terminal) (now : Int) (events : List Event) (s : Shell) (fork : Option Int)
    (single : Runs.Obeys sessionStep (Event.Obeys Single) events (start now))
    (reached : session now events = .ok s) :
    ∃ t, typeLine terminal fork "jobs".toList s =
        some ⟨false, t, s.removalMessages ++ ((removeFinishedJobs s).removalMessages ++
          t.jobsVec.map fun job => .out (jobLine terminal t.kernel.now job))⟩ ∧
      (t.jobsVec.Pairwise fun a b => a.jobId < b.jobId) ∧
      ∀ job ∈ t.jobsVec, job.jobId < 2 ^ 31 → t.kernel.phase job.pid = .alive →
        Answers terminal fork t job := by
  obtain ⟨actions, -, obeys, run⟩ := session_run (fun _ _ _ => trivial) single reached
  have keeps : Ends (fun s => Attends s ∧ Numbered s) (fun _ => True) (smash now actions) := by
    refine execute_ends (fun action s holds allowed => ?_) ⟨start_attends now, start_numbered now⟩ obeys
    cases result : step action s with
    | ok t => exact ⟨holds.1.step result, holds.2.step holds.1 allowed result⟩
    | error stop => trivial
  have unique := (keeps.reached run).2.removeFinishedJobs.unique
  obtain ⟨sorted, ascending⟩ := printJobsList_ascending unique
  exact ⟨printJobsList (removeFinishedJobs s), typeLine_jobs terminal fork s, ascending,
    fun job member fits alive => answers terminal fork sorted member fits alive⟩

theorem jobs_answer_sample : ∃ s t : Shell, typeLine plainTerminal none "jobs".toList s =
      some ⟨false, t, s.removalMessages ++ ((removeFinishedJobs s).removalMessages ++
        t.jobsVec.map fun job => .out (jobLine plainTerminal t.kernel.now job))⟩ ∧
    (t.jobsVec.Pairwise fun a b => a.jobId < b.jobId) ∧
    ∀ job ∈ t.jobsVec, job.jobId < 2 ^ 31 → t.kernel.phase job.pid = .alive →
      Answers plainTerminal none t job := by
  obtain ⟨s, reached, -⟩ := sleeping_reaches
  exact ⟨s, jobs_answer plainTerminal 0 sleeping s none (sleeping_obeys Single) reached⟩

/-- A second `SIGKILL` does nothing. -/
theorem deliver_deliver (process : Process) :
    (process.deliver SIGKILL).deliver SIGKILL = process.deliver SIGKILL := by
  cases process <;> rfl

/-- What `kill` with `SIGKILL` leaves of a process, whether it succeeds or not. -/
theorem kill_table_iff (k : Kernel) (pid other : Int) : ((k.kill pid SIGKILL).getD k).table other =
    if other = pid then (k.table other).map (Process.deliver SIGKILL) else k.table other := by
  unfold Kernel.kill
  rcases found : k.table pid with _ | _ | _ | _ | _ <;> by_cases here : other = pid <;>
    simp [Kernel.set, here, found, Process.deliver]

theorem killAllLoop_kernel (k : Kernel) (jobs : List JobEntry) : (killAllLoop k (job :: jobs)).1 =
    (killAllLoop ((k.kill job.pid SIGKILL).getD k) jobs).1 := by
  rw [killAllLoop]
  cases k.kill job.pid SIGKILL <;> rfl

/-- `killAllJobs` kills what is on the list and nothing else. -/
theorem killAllLoop_table (k : Kernel) (jobs : List JobEntry) (pid : Int) : (killAllLoop k jobs).1.table pid =
    if pid ∈ pids jobs then (k.table pid).map (Process.deliver SIGKILL) else k.table pid := by
  induction jobs generalizing k with
  | nil => simp [killAllLoop, pids]
  | cons job jobs inductionHypothesis =>
    rw [killAllLoop_kernel, inductionHypothesis, kill_table_iff]
    have listed : pid ∈ pids (job :: jobs) ↔ pid = job.pid ∨ pid ∈ pids jobs := by simp [pids]
    by_cases here : pid = job.pid
    · rw [if_pos here, if_pos (listed.mpr (Or.inl here))]
      split
      · rw [Option.map_map]
        exact congrArg (Option.map · (k.table pid)) (funext deliver_deliver)
      · rfl
    · rw [if_neg here]
      exact if_congr ((or_iff_right here).symm.trans listed.symm) rfl rfl

/-- Only the living are changed by `SIGKILL`. -/
theorem deliver_table (k : Kernel) (pid : Int) : (k.table pid).map (Process.deliver SIGKILL) =
    if k.phase pid = .alive then some (.terminated (.signaled SIGKILL)) else k.table pid := by
  unfold Kernel.phase
  rcases k.table pid with _ | _ | _ | _ | _ <;> simp [Process.phase, Process.deliver]

/-- In every session in which no loop releases a child that is not on the list, `quit kill` at
the prompt ends the shell, kills every child that lives and touches no other. -/
theorem quit_kills (terminal : Terminal) (now : Int) (events : List Event) (s : Shell) (fork : Option Int)
    (watchful : Runs.Obeys sessionStep (Event.Obeys Watchful) events (start now))
    (reached : session now events = .ok s) (prompt : s.mode = .prompt) :
    ∃ ran, typeLine terminal fork "quit kill".toList s = some ran ∧ ran.exited = true ∧
      ∀ pid, ran.shell.kernel.table pid =
        if s.kernel.phase pid = .alive then some (.terminated (.signaled SIGKILL))
        else (removeFinishedJobs s).kernel.table pid := by
  obtain ⟨actions, -, obeys, run⟩ := session_run (fun _ _ _ => trivial) watchful reached
  have keeps : Ends (fun s => Attends s ∧ Tracked s) (fun _ => True) (smash now actions) := by
    refine execute_ends (fun action s holds allowed => ?_)
      ⟨start_attends now, fun pid alive => by simp [start, Kernel.phase] at alive⟩ obeys
    cases result : step action s with
    | ok t => exact ⟨holds.1.step result, holds.2.step holds.1 allowed result⟩
    | error stop => trivial
  obtain ⟨attends, tracked⟩ := keeps.reached run
  have kept := tracked.kept attends prompt
  have prunes := removeFinishedJobs_prunes s
  have made : createCommand "quit kill".toList = some (.builtIn .quit
      ⟨["quit".toList, "kill".toList], "quit kill".toList, "quit kill".toList⟩) := by decide +kernel
  have named : trim "kill".toList = "kill".toList := by decide +kernel
  refine ⟨⟨true, (killAllJobs (removeFinishedJobs s)).1, s.removalMessages ++
    (killAllJobs (removeFinishedJobs s)).2⟩, ?_, rfl, fun pid => ?_⟩
  · rw [typeLine, runLine, made]
    simp only [quitCommand, if_pos named, Option.map_some, Ran.behind]
  · have sorted := (List.perm_insertionSort (fun a b : JobEntry => a.jobId ≤ b.jobId)
      (removeFinishedJobs s).jobsVec).map JobEntry.pid
    refine (killAllLoop_table _ _ pid).trans ?_
    rw [deliver_table]
    simp only [prunes.reaps.alive]
    by_cases alive : s.kernel.phase pid = .alive
    · have listed : pid ∈ pids (removeFinishedJobs s).jobsVec := prunes.keeps (kept pid alive) alive
      rw [if_pos alive]
      exact if_pos (sorted.mem_iff.mpr listed)
    · rw [if_neg alive]
      exact ite_self _

theorem quit_kills_sample : ∃ s ran, typeLine plainTerminal none "quit kill".toList s = some ran ∧
    ran.exited = true ∧ ∀ pid, ran.shell.kernel.table pid =
      if s.kernel.phase pid = .alive then some (.terminated (.signaled SIGKILL))
      else (removeFinishedJobs s).kernel.table pid := by
  obtain ⟨s, reached, prompt⟩ := sleeping_reaches
  exact ⟨s, quit_kills plainTerminal 0 sleeping s none (sleeping_obeys Watchful) reached prompt⟩

end OperatingSystems.Smash
