import OperatingSystems.Smash.Expiry

/-!
# Who is registered as a timed command

`TimeoutCommand::execute` leaves a request that whatever is forked next takes: a
built-in command under the timeout does not, nor does one whose `fork` fails. The
handler of Ctrl-Z takes the request for a job that was brought to the foreground.
-/

namespace OperatingSystems.Smash

open Runs

variable {s t : Shell} {fork : Option Int} {pid now : Int} {request new : TimedCmd} {r : Option TimedCmd}
  {e : Nat × TimedCmd} {command : Command} {action : Action} {past : List Action}

/-- Duration and text of the timeout that the process which a command starts is
under: the innermost, if there are several. -/
def timedBy : Command → Option (Int × String)
  | .timeout duration cmdLine inner =>
    if duration < 0 then none
    else if startsUntimed inner then some (duration, cmdLine) else timedBy inner
  | .redirection inner => timedBy inner
  | _ => none

/-- The step adds entries only for the process that it starts under a timeout, with
its duration and text. -/
def AddsOwn (action : Action) (s t : Shell) : Prop :=
  ∀ e ∈ t.timedCmds, (∀ f ∈ s.timedCmds, f.1 ≠ e.1) →
    ∃ command, action = .command command (some e.2.pid) ∧ s.kernel.phase e.2.pid = .absent ∧
      timedBy command = some (e.2.timeToAlarm, e.2.cmdS)

/-- Whom the handler of the alarm kills, a command of the past started under a
timeout. -/
def KillsOwn (past : List Action) (s : Shell) : Prop :=
  ∀ pid, s.kernel.phase pid = .alive → (killTimedCmmands s).kernel.phase pid ≠ .alive →
    ∃ command, .command command (some pid) ∈ past ∧ (timedBy command).isSome = true

/-- In a run each step adds its own entries only, and at no time does the handler
of the alarm kill others than those that were started under a timeout. -/
structure TimesOwn (now : Int) (actions : List Action) : Prop where
  adds : Obeys step (fun action s => Ends (AddsOwn action s) (fun _ => True) (step action s)) actions (start now)
  kills : ∀ n, Ends (KillsOwn (actions.take n)) (fun _ => True) (smash now (actions.take n))

/-- No request is left when a process is started that is not under a timeout, and
none when Ctrl-Z finds a process in the foreground. -/
def Unrequested : Action → Shell → Prop
  | .command command fork, s => startsUntimed command = true → s.mode = .prompt →
      (∃ pid ∈ fork, 0 < pid ∧ s.kernel.phase pid = .absent) → s.timeThis.timeThis = false
  | .ctrlZ, s => (∃ cmd ∈ s.foregroundCmd, s.kernel.Waitable cmd.childPid) → s.timeThis.timeThis = false
  | _, _ => True

/-- The record that a command adds, given the request it finds. -/
def registers (fork : Option Int) (now : Int) : Command → TimedCmd → Option TimedCmd
  | .external _ _, request =>
    if request.timeThis then fork.map fun pid => { request with pid := pid, startTime := now } else none
  | .timeout duration cmdLine inner, _ =>
    if duration < 0 then none else registers fork now inner { timedCmd duration with cmdS := cmdLine }
  | .redirection inner, request => registers fork now inner request
  | _, _ => none

/-- The record that a step adds. -/
def added : Action → Shell → Option TimedCmd
  | .command command fork, s => registers fork s.kernel.now command s.timeThis
  | .ctrlZ, s => s.foregroundCmd.bind fun cmd =>
    if s.kernel.Waitable cmd.childPid ∧ s.timeThis.timeThis then some s.timeThis else none
  | _, _ => none

/-- A record joins the list, or none, and takes a node. -/
structure Appends (s : Shell) (r : Option TimedCmd) (t : Shell) : Prop where
  timedCmds : t.timedCmds = s.timedCmds ++ r.toList.map fun new => (s.nodes, new)
  nodes : t.nodes = s.nodes + r.toList.length

theorem Appends.idle (timedCmds : t.timedCmds = s.timedCmds) (nodes : t.nodes = s.nodes) : Appends s none t :=
  ⟨by simp [timedCmds], by simp [nodes]⟩

theorem pushTimed_appends (s : Shell) :
    Appends s (if s.timeThis.timeThis then some s.timeThis else none) (pushTimed s).2 := by
  rcases pushTimed_cases s with ⟨idle, same⟩ | ⟨requested, pushes⟩
  · rw [same, idle]
    exact Appends.idle rfl rfl
  · rw [pushes, requested]
    exact ⟨rfl, rfl⟩

theorem moveToBackground_appends (cmd : ForegroundCmd) (isStopped : Bool) (s : Shell) :
    Appends s (if s.timeThis.timeThis then some s.timeThis else none) (moveToBackground cmd isStopped s) :=
  ⟨(pushTimed_appends (addJob cmd isStopped s)).timedCmds, (pushTimed_appends (addJob cmd isStopped s)).nodes⟩

/-- A new process takes the request. -/
theorem executeExternal_appends {cmdLine : String} {isInBg : Bool}
    (run : executeExternal cmdLine isInBg fork s = .ok t) :
    Appends s (registers fork s.kernel.now (.external cmdLine isInBg) s.timeThis) t := by
  cases fork with
  | none =>
    obtain rfl := Except.ok.inj run
    simpa [registers] using Appends.idle (s := s) rfl rfl
  | some pid =>
    have taken : (if (forked pid s).timeThis.timeThis then some (forked pid s).timeThis else none) =
        registers (some pid) s.kernel.now (.external cmdLine isInBg) s.timeThis := by
      cases flag : s.timeThis.timeThis <;> simp [forked, registers, flag]
    rw [← taken]
    unfold executeExternal at run
    simp only at run
    split at run
    · cases isInBg with
      | true =>
        obtain rfl := Except.ok.inj run
        have appends := moveToBackground_appends ⟨pid, cmdLine⟩ false (forked pid s)
        exact ⟨appends.timedCmds, appends.nodes⟩
      | false =>
        obtain rfl := Except.ok.inj run
        have appends := pushTimed_appends (forked pid s)
        exact ⟨appends.timedCmds, appends.nodes⟩
    · exact absurd run (by simp)

/-- A command adds the record that its process takes. -/
theorem execute_appends (run : execute fork command s = .ok t) :
    Appends s (registers fork s.kernel.now command s.timeThis) t := by
  induction command generalizing s with
  | external cmdLine isInBg => exact executeExternal_appends run
  | jobs => exact Except.ok.inj run ▸ Appends.idle (t := printJobsList s) rfl rfl
  | kill signal jobId =>
    obtain rfl := Except.ok.inj run
    rcases executeKill_cases signal jobId s with same | ⟨job, l, jobs, signals, same⟩
    · rw [same]
      exact Appends.idle rfl rfl
    · rw [same]
      exact Appends.idle rfl rfl
  | fg arg =>
    obtain rfl := Except.ok.inj run
    rcases executeFg_cases arg s with same | ⟨i, job, front, back, l, _, _, _, _, same⟩
    · rw [same]
      exact Appends.idle rfl rfl
    · rw [same]
      exact Appends.idle rfl rfl
  | bg arg =>
    obtain rfl := Except.ok.inj run
    rcases executeBg_cases arg s with same | ⟨job, l, jobs, signals, same⟩
    · rw [same]
      exact Appends.idle rfl rfl
    · rw [same]
      exact Appends.idle rfl rfl
  | timeout duration cmdLine inner inductionHypothesis =>
    unfold execute at run
    unfold registers
    split at run
    · next negative =>
      rw [if_pos negative]
      exact Except.ok.inj run ▸ Appends.idle rfl rfl
    · next allowed =>
      rw [if_neg allowed]
      have appends := inductionHypothesis run
      rw [(removeFinishedJobs_prunes (setTimeout duration cmdLine s)).reaps.now] at appends
      exact ⟨appends.timedCmds, appends.nodes⟩
  | redirection inner inductionHypothesis =>
    have appends := inductionHypothesis run
    rw [(removeFinishedJobs_prunes s).reaps.now] at appends
    exact ⟨appends.timedCmds, appends.nodes⟩
  | pipe left right => exact Except.ok.inj run ▸ Appends.idle (t := executePipe left right s) rfl rfl
  | quit => exact absurd run (by simp [execute])
  | other => exact Except.ok.inj run ▸ Appends.idle rfl rfl

/-- The record is that of the process that is started, which was not there. -/
theorem execute_fresh (run : execute fork command s = .ok t)
    (new_ : new ∈ registers fork s.kernel.now command s.timeThis) :
    fork = some new.pid ∧ 0 < new.pid ∧ s.kernel.phase new.pid = .absent := by
  induction command generalizing s with
  | external cmdLine isInBg =>
    unfold registers at new_
    split at new_
    · obtain ⟨pid, rfl, rfl⟩ := Option.map_eq_some_iff.mp new_
      simp only [execute, executeExternal] at run
      split at run
      · next fresh =>
        refine ⟨rfl, fresh.1, ?_⟩
        simp [Kernel.phase, fresh.2]
      · exact absurd run (by simp)
    · exact absurd new_ (by simp)
  | timeout duration cmdLine inner inductionHypothesis =>
    unfold execute at run
    unfold registers at new_
    split at run
    · next negative =>
      rw [if_pos negative] at new_
      exact absurd new_ (by simp)
    · next allowed =>
      rw [if_neg allowed] at new_
      have reaps := (removeFinishedJobs_prunes (setTimeout duration cmdLine s)).reaps
      have fresh := inductionHypothesis run
      rw [reaps.now, reaps.absent] at fresh
      exact fresh new_
  | redirection inner inductionHypothesis =>
    have reaps := (removeFinishedJobs_prunes s).reaps
    have fresh := inductionHypothesis run
    rw [reaps.now, reaps.absent] at fresh
    exact fresh new_
  | _ => exact absurd new_ (by simp [registers])

/-- A process that is not under a timeout takes the request as it finds it; one that
is takes that of its timeout. -/
theorem registers_own (new_ : new ∈ registers fork now command request) :
    if startsUntimed command then
      request.timeThis = true ∧ new.timeToAlarm = request.timeToAlarm ∧ new.cmdS = request.cmdS
    else timedBy command = some (new.timeToAlarm, new.cmdS) := by
  induction command generalizing request with
  | external cmdLine isInBg =>
    unfold registers at new_
    split at new_
    · next requested =>
      obtain ⟨pid, rfl, rfl⟩ := Option.map_eq_some_iff.mp new_
      exact ⟨requested, rfl, rfl⟩
    · exact absurd new_ (by simp)
  | timeout duration cmdLine inner inductionHypothesis =>
    unfold registers at new_
    split at new_
    · exact absurd new_ (by simp)
    · next allowed =>
      have own := inductionHypothesis new_
      simp only [startsUntimed, Bool.false_eq_true, if_false, timedBy, if_neg allowed]
      split at own
      · next untimed =>
        obtain ⟨_, duration_, cmdLine_⟩ := own
        rw [if_pos untimed, duration_, cmdLine_]
        rfl
      · next timed =>
        rw [if_neg timed]
        exact own
  | redirection inner inductionHypothesis => exact inductionHypothesis new_
  | _ => exact absurd new_ (by simp [registers])

theorem timedBy_untimed (untimed : startsUntimed command = true) : timedBy command = none := by
  induction command with
  | external cmdLine isInBg => rfl
  | redirection inner inductionHypothesis => exact inductionHypothesis untimed
  | _ => exact absurd untimed (by simp [startsUntimed])

/-- A process that is not under a timeout is started whenever there is a new
process id, and takes a request that it finds. -/
theorem startsUntimed_takes (untimed : startsUntimed command = true) (child : 0 < pid)
    (fresh : s.kernel.phase pid = .absent) (requested : s.timeThis.timeThis = true) :
    (∃ t, execute (some pid) command s = .ok t) ∧
      ∃ new, registers (some pid) s.kernel.now command s.timeThis = some new := by
  induction command generalizing s with
  | external cmdLine isInBg =>
    have unused : s.kernel.table pid = none := by
      unfold Kernel.phase at fresh
      cases found : s.kernel.table pid with
      | none => rfl
      | some process => cases process <;> simp [found, Process.phase] at fresh
    constructor
    · cases isInBg with
      | true => exact ⟨_, if_pos ⟨child, unused⟩⟩
      | false => exact ⟨_, if_pos ⟨child, unused⟩⟩
    · exact ⟨_, if_pos requested⟩
  | redirection inner inductionHypothesis =>
    have reaps := (removeFinishedJobs_prunes s).reaps
    have takes := inductionHypothesis (s := removeFinishedJobs s) untimed (reaps.absent.mpr fresh) requested
    rw [reaps.now] at takes
    exact takes
  | _ => exact absurd untimed (by simp [startsUntimed])

/-- What a step makes of the list: entries stay, lose their process or go, and at
most one is added, which takes a node. -/
structure Logs (s : Shell) (r : Option TimedCmd) (t : Shell) : Prop where
  old : ∀ e ∈ t.timedCmds, e ∈ s.timedCmds ∨ (e.2.pid = -1 ∧ ∃ f ∈ s.timedCmds, f.1 = e.1) ∨
    ∃ new ∈ r, e = (s.nodes, new)
  new : ∀ new ∈ r, (s.nodes, new) ∈ t.timedCmds
  nodes : t.nodes = s.nodes + r.toList.length

theorem Appends.logs (appends : Appends s r t) : Logs s r t where
  old := by
    intro e member
    rw [appends.timedCmds, List.mem_append, List.mem_map] at member
    rcases member with old | ⟨new, isNew, rfl⟩
    · exact Or.inl old
    · exact Or.inr (Or.inr ⟨new, Option.mem_toList.mp isNew, rfl⟩)
  new := by
    intro new isNew
    rw [appends.timedCmds]
    exact List.mem_append_right _ (List.mem_map_of_mem (Option.mem_toList.mpr isNew))
  nodes := appends.nodes

/-- Entries only go. -/
theorem Logs.sublist (sublist : t.timedCmds.Sublist s.timedCmds) (nodes : t.nodes = s.nodes) : Logs s none t :=
  ⟨fun _ member => Or.inl (sublist.subset member), nofun, nodes⟩

/-- A pass through a loop takes a process off the list at most. -/
theorem poll_logs (run : poll s = .ok t) : Logs s none t := by
  have nodes : t.nodes = s.nodes := by
    unfold poll at run
    split at run
    · split at run
      · exact Except.ok.inj run ▸ rfl
      · exact Except.ok.inj run ▸ rfl
      · simp only at run
        split at run
        · exact Except.ok.inj run ▸ rfl
        · exact Except.ok.inj run ▸ rfl
    · split at run
      · exact Except.ok.inj run ▸ rfl
      · exact Except.ok.inj run ▸ rfl
      · split at run
        · exact Except.ok.inj run ▸ rfl
        · exact Except.ok.inj run ▸ rfl
    · exact absurd run (by simp)
  obtain ⟨cmd, _, _, _, _, ⟨_, _, _, same, _⟩ | ⟨_, _, _, _, same | ⟨_, it, _, same⟩⟩⟩ := poll_cases run
  · exact Logs.sublist (same ▸ List.Sublist.refl _) nodes
  · exact Logs.sublist (same ▸ List.Sublist.refl _) nodes
  · refine ⟨fun e member => ?_, nofun, nodes⟩
    rw [same] at member
    obtain ⟨former, listed, becomes⟩ := List.mem_map.mp member
    split at becomes
    · subst becomes
      exact Or.inr (Or.inl ⟨rfl, former, listed, rfl⟩)
    · exact Or.inl (becomes ▸ listed)

/-- A step adds its record, if it has one, and no other. -/
theorem step_logs (run : step action s = .ok t) : Logs s (added action s) t := by
  cases action with
  | command command fork =>
    have appends := execute_appends (command_run run).2
    rw [(removeFinishedJobs_prunes s).reaps.now] at appends
    exact Appends.logs ⟨appends.timedCmds, appends.nodes⟩
  | poll => exact poll_logs run
  | wait reaped =>
    obtain ⟨_, behind, l, _, rfl, _⟩ := waitPipe_cases run
    refine Logs.sublist ?_ (leaveWait_nodes _ _)
    rw [leaveWait_timedCmds]
  | ctrlZ =>
    obtain rfl := Except.ok.inj run
    simp only [added]
    rcases ctrlZ_cases s with ⟨same, gone⟩ | ⟨cmd, l, jobId, waited, phase, _, _, here, same, _⟩
    · have idle : (s.foregroundCmd.bind fun cmd =>
          if s.kernel.Waitable cmd.childPid ∧ s.timeThis.timeThis then some s.timeThis else none) = none := by
        refine Option.bind_eq_none_iff.mpr fun cmd waited => if_neg fun taken => ?_
        rcases gone cmd waited with absent | reaped
        · exact (waitable_iff.mp taken.1).1 absent
        · exact (waitable_iff.mp taken.1).2 reaped
      rw [idle, same]
      exact Logs.sublist (List.Sublist.refl _) rfl
    · have waitable : s.kernel.Waitable cmd.childPid := here.of_phase (congrFun phase _).symm
      have appends := moveToBackground_appends cmd true { s with kernel := l }
      rw [same, waited]
      simp only [Option.bind_some, waitable, true_and]
      rw [waited] at appends
      exact Appends.logs ⟨appends.timedCmds, appends.nodes⟩
  | ctrlC =>
    obtain rfl := Except.ok.inj run
    obtain ⟨l, same, _⟩ := ctrlC_cases s
    exact same ▸ Logs.sublist (List.Sublist.refl _) rfl
  | alarm =>
    obtain ⟨_, same, _, _, sublist⟩ := alarm_run run
    exact Logs.sublist sublist (same ▸ rfl)
  | change pid status =>
    obtain ⟨process, _, _, same, _⟩ := change_run run
    exact same ▸ Logs.sublist (List.Sublist.refl _) rfl
  | tick => exact Except.ok.inj run ▸ Logs.sublist (List.Sublist.refl _) rfl

/-- The nodes of the list were all made. -/
def Indexed (s : Shell) : Prop := ∀ e ∈ s.timedCmds, e.1 < s.nodes

theorem Indexed.step (indexed : Indexed s) (run : step action s = .ok t) : Indexed t := by
  have logs := step_logs run
  intro e member
  rw [logs.nodes]
  rcases logs.old e member with old | ⟨_, f, old, same⟩ | ⟨new, isNew, rfl⟩
  · exact Nat.lt_add_right _ (indexed e old)
  · exact same ▸ Nat.lt_add_right _ (indexed f old)
  · rw [Option.mem_def.mp isNew]
    exact Nat.lt_add_one _

/-- The entry that a step adds is new. -/
theorem Indexed.fresh (indexed : Indexed s) : ∀ f ∈ s.timedCmds, f.1 ≠ (s.nodes, new).1 :=
  fun f member => Nat.ne_of_lt (indexed f member)

/-- Without a request left over a step adds its own entries. -/
theorem Unrequested.addsOwn (unrequested : Unrequested action s) (run : step action s = .ok t) :
    AddsOwn action s t := by
  intro e member fresh
  rcases (step_logs run).old e member with old | ⟨_, f, old, same⟩ | ⟨new, isNew, rfl⟩
  · exact absurd rfl (fresh e old)
  · exact absurd same (fresh f old)
  · cases action with
    | command command fork =>
      obtain ⟨prompt, run⟩ := command_run run
      have reaps := (removeFinishedJobs_prunes s).reaps
      obtain ⟨rfl, child, absent⟩ := execute_fresh run (by rw [reaps.now]; exact isNew)
      rw [reaps.absent] at absent
      have own := registers_own isNew
      split at own
      · next untimed =>
        have idle := unrequested untimed prompt ⟨_, rfl, child, absent⟩
        rw [idle] at own
        exact absurd own.1 (by simp)
      · exact ⟨command, rfl, absent, own⟩
    | ctrlZ =>
      obtain ⟨cmd, waited, taken⟩ := Option.bind_eq_some_iff.mp isNew
      split at taken
      · next here =>
        have idle := unrequested ⟨cmd, waited, here.1⟩
        rw [idle] at here
        exact absurd here.2 (by simp)
      · exact absurd taken (by simp)
    | _ => exact absurd isNew (by simp [added])

/-- A request that is left over is taken by a process that has no timeout. -/
theorem Indexed.exposes (indexed : Indexed s)
    (adds : Ends (AddsOwn action s) (fun _ => True) (Smash.step action s)) : Unrequested action s := by
  cases action with
  | command command fork =>
    rintro untimed prompt ⟨pid, isFork, child, absent⟩
    obtain rfl := Option.mem_def.mp isFork
    by_contra requested
    rw [Bool.not_eq_false] at requested
    have reaps := (removeFinishedJobs_prunes s).reaps
    obtain ⟨⟨t, run⟩, new, isNew⟩ := startsUntimed_takes (s := removeFinishedJobs s) untimed child
      (reaps.absent.mpr absent) requested
    rw [reaps.now] at isNew
    have runs : Smash.step (.command command (some pid)) s = .ok t := by
      simp only [Smash.step, if_pos prompt]
      exact run
    have listed : (s.nodes, new) ∈ t.timedCmds := (step_logs runs).new new isNew
    rw [runs] at adds
    obtain ⟨owner, same, _, own⟩ := adds (s.nodes, new) listed indexed.fresh
    injection same with same
    rw [← same, timedBy_untimed untimed] at own
    exact absurd own (by simp)
  | ctrlZ =>
    rintro ⟨cmd, waited, waitable⟩
    by_contra requested
    rw [Bool.not_eq_false] at requested
    have isNew : s.timeThis ∈ added .ctrlZ s := by
      simp [added, Option.mem_def.mp waited, waitable, requested]
    have listed : (s.nodes, s.timeThis) ∈ (ctrlZHandler s).timedCmds :=
      (step_logs (show Smash.step .ctrlZ s = .ok (ctrlZHandler s) from rfl)).new _ isNew
    obtain ⟨owner, same, _⟩ := adds (s.nodes, s.timeThis) listed indexed.fresh
    exact absurd same (by simp)
  | _ => trivial

/-- The processes on the list were started under a timeout. -/
structure Traced (past : List Action) (s : Shell) : Prop where
  timed : Timed s
  indexed : Indexed s
  started : ∀ e ∈ s.timedCmds, e.2.pid ≠ -1 →
    ∃ command, .command command (some e.2.pid) ∈ past ∧ (timedBy command).isSome = true

/-- Whom the handler kills is on the list. -/
theorem Traced.killsOwn (traced : Traced past s) : KillsOwn past s := by
  intro pid alive killed
  by_cases listed : ∃ e ∈ s.timedCmds, e.2.pid = pid
  · obtain ⟨e, member, rfl⟩ := listed
    apply traced.started e member
    intro none
    rw [none, traced.timed.nobody] at alive
    exact absurd alive (by simp)
  · have apart : ∀ e ∈ s.timedCmds, e.2.pid ≠ pid := fun e member same => listed ⟨e, member, same⟩
    exact absurd ((phase_congr (killTimedLoop_others apart)).trans alive) killed

theorem Traced.step (traced : Traced past s) (unrequested : Unrequested action s)
    (run : step action s = .ok t) : Traced (past ++ [action]) t where
  timed := traced.timed.step run
  indexed := traced.indexed.step run
  started := by
    intro e member somebody
    rcases (step_logs run).old e member with old | ⟨none, _⟩ | ⟨new, isNew, rfl⟩
    · obtain ⟨command, before, isTimed⟩ := traced.started e old somebody
      exact ⟨command, List.mem_append_left _ before, isTimed⟩
    · exact absurd none somebody
    · obtain ⟨command, rfl, _, own⟩ := unrequested.addsOwn run _ member traced.indexed.fresh
      exact ⟨command, by simp, by simp [own]⟩

theorem start_traced (now : Int) : Traced [] (start now) :=
  ⟨start_timed now, fun _ member => absurd member List.not_mem_nil, fun _ member => absurd member List.not_mem_nil⟩

/-- In a run timeouts concern their own commands alone exactly when no step of it
finds a request that an earlier timeout has left. -/
theorem runs_time_iff (now : Int) (actions : List Action) :
    Obeys step Unrequested actions (start now) ↔ TimesOwn now actions := by
  have agree : Obeys step Unrequested actions (start now) ↔
      Obeys step (fun action s => Ends (AddsOwn action s) (fun _ => True) (step action s)) actions (start now) := by
    refine obeys_congr (I := Indexed) (fun action s t indexed run => indexed.step run) ?_
      (start_traced now).indexed
    refine fun action s indexed => ⟨fun unrequested => ?_, fun adds => indexed.exposes adds⟩
    cases run : step action s with
    | ok t => exact unrequested.addsOwn run
    | error stop => trivial
  refine ⟨fun obeys => ⟨agree.mp obeys, fun n => ?_⟩, fun own => agree.mpr own.adds⟩
  have front : Obeys step Unrequested (actions.take n) (start now) := by
    rw [← List.take_append_drop n actions] at obeys
    exact obeys.front
  have traced : Ends (Traced ([] ++ actions.take n)) (fun _ => True) (smash now (actions.take n)) := by
    refine execute_remembers (fun past action s traced unrequested => ?_) (start_traced now) front
    cases run : step action s with
    | ok t => exact traced.step unrequested run
    | error stop => trivial
  exact traced.mono fun s traced => traced.killsOwn

/-- A built-in command under a timeout, and then a job that is under none. -/
def leftRequest : List Action :=
  [.command (.timeout 5 "timeout 5 pwd" .other) none,
    .command (.external "sleep 100 &" true) (some 100), .tick, .tick, .tick, .tick, .tick]

/-- The job is killed by the handler of the alarm. -/
theorem run_kills_untimed : ¬∀ now actions, TimesOwn now actions := by
  intro all
  have kills := (all 0 leftRequest).kills 7
  refine absurd kills (not_ends (fun s => decide (s.kernel.phase 100 = .alive →
    (killTimedCmmands s).kernel.phase 100 = .alive)) (fun s own => decide_eq_true fun alive => ?_) ?_)
  · by_contra killed
    obtain ⟨command, started, isTimed⟩ := own 100 alive killed
    simp only [leftRequest, List.take, List.mem_cons, Action.command.injEq, reduceCtorEq, and_false, false_or,
      and_true, or_false, List.not_mem_nil] at started
    rw [started] at isTimed
    exact absurd isTimed (by decide)
  · decide +kernel

end OperatingSystems.Smash
