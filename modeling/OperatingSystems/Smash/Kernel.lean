import Mathlib.Logic.Function.Basic

/-!
# Child processes as the shell observes them

A child runs, is stopped, has terminated and waits to be reaped, or was reaped.
The system remembers the latest change of state that `waitpid` has not yet
reported; a later change replaces it. A process id is never used again.

`SIGSTOP`, `SIGCONT` and `SIGKILL` cannot be caught, so `kill` performs what
they do. What other signals do is up to the child and so a change of state of
its own, which may happen at any time.
-/

namespace OperatingSystems.Smash

/-- A change of a process that goes on. -/
inductive Change where
  | stopped
  | continued
deriving DecidableEq, Repr

/-- How a process has terminated. -/
inductive Ending where
  | exited
  | signaled (signal : Int)
deriving DecidableEq, Repr

/-- The status that `waitpid` stores. -/
inductive Status where
  | changed (change : Change)
  | ended (ending : Ending)
deriving DecidableEq, Repr

def WIFEXITED (status : Status) : Bool := status = .ended .exited

def WIFSIGNALED : Status → Bool
  | .ended (.signaled _) => true
  | _ => false

def WIFSTOPPED (status : Status) : Bool := status = .changed .stopped

def WIFCONTINUED (status : Status) : Bool := status = .changed .continued

def WTERMSIG : Status → Int
  | .ended (.signaled signal) => signal
  | _ => 0

def SIGINT : Int := 2
def SIGKILL : Int := 9
def SIGCONT : Int := 18
def SIGSTOP : Int := 19

/-- A child, with the change that was not reported yet. -/
inductive Process where
  | running (news : Option Change)
  | stopped (news : Option Change)
  | terminated (ending : Ending)
  | reaped
deriving DecidableEq, Repr

/-- The children, the time in seconds, and when the pending alarm is due. -/
structure Kernel where
  table : Int → Option Process
  now : Int
  alarm : Option Int

/-- What a call of `waitpid` comes to: -1, 0, or the process id and a status. -/
inductive Wait where
  | failed
  | nothing
  | success (status : Status)
deriving DecidableEq, Repr

def Kernel.set (k : Kernel) (pid : Int) (process : Process) : Kernel :=
  { k with table := Function.update k.table pid (some process) }

/-- `waitpid(pid, &status, WNOHANG | WUNTRACED | WCONTINUED)`. -/
def Kernel.waitpid (k : Kernel) (pid : Int) : Wait × Kernel :=
  match k.table pid with
  | some (.running (some change)) => (.success (.changed change), k.set pid (.running none))
  | some (.stopped (some change)) => (.success (.changed change), k.set pid (.stopped none))
  | some (.terminated ending) => (.success (.ended ending), k.set pid .reaped)
  | some (.running none) | some (.stopped none) => (.nothing, k)
  | some .reaped | none => (.failed, k)

/-- A signal reaches a process. -/
def Process.deliver (signal : Int) : Process → Process
  | .running news =>
    if signal = SIGKILL then .terminated (.signaled SIGKILL)
    else if signal = SIGSTOP then .stopped (some .stopped)
    else .running news
  | .stopped news =>
    if signal = SIGKILL then .terminated (.signaled SIGKILL)
    else if signal = SIGCONT then .running (some .continued)
    else .stopped news
  | process => process

/-- `kill(pid, signal)`, which fails when there is no such process. -/
def Kernel.kill (k : Kernel) (pid signal : Int) : Option Kernel :=
  match k.table pid with
  | none | some .reaped => none
  | some process => some (k.set pid (process.deliver signal))

/-- A change of a child that is not the shell's doing. -/
def Process.change : Status → Process → Option Process
  | .changed .stopped, .running _ => some (.stopped (some .stopped))
  | .changed .continued, .stopped _ => some (.running (some .continued))
  | .ended ending, .running _ => some (.terminated ending)
  | .ended (.signaled signal), .stopped _ => some (.terminated (.signaled signal))
  | _, _ => none

/-- Whether there is a process, and whether it has ended. -/
inductive Phase where
  | absent
  | alive
  | ended
  | reaped
deriving DecidableEq, Repr

def Process.phase : Process → Phase
  | .running _ | .stopped _ => .alive
  | .terminated _ => .ended
  | .reaped => .reaped

def Kernel.phase (k : Kernel) (pid : Int) : Phase := ((k.table pid).map Process.phase).getD .absent

/-- The change of a process that `waitpid` would report next. -/
def Kernel.news (k : Kernel) (pid : Int) : Option Change :=
  match k.table pid with
  | some (.running news) | some (.stopped news) => news
  | _ => none

def Process.isStopped : Process → Bool
  | .stopped _ => true
  | _ => false

/-- The process is stopped. -/
def Kernel.isStopped (k : Kernel) (pid : Int) : Bool := ((k.table pid).map Process.isStopped).getD false

/-- There is a child that `waitpid` does not fail on. -/
def Kernel.Waitable (k : Kernel) (pid : Int) : Prop := k.phase pid = .alive ∨ k.phase pid = .ended

instance (k : Kernel) (pid : Int) : Decidable (k.Waitable pid) := inferInstanceAs (Decidable (_ ∨ _))

variable {k l m : Kernel} {pid other : Int}

theorem Kernel.Waitable.of_phase (waitable : k.Waitable pid) (same : l.phase pid = k.phase pid) :
    l.Waitable pid := by
  unfold Kernel.Waitable
  rwa [same]

theorem waitable_iff : k.Waitable pid ↔ k.phase pid ≠ .absent ∧ k.phase pid ≠ .reaped := by
  unfold Kernel.Waitable
  cases k.phase pid <;> simp

theorem phase_set (k : Kernel) (pid : Int) (process : Process) :
    (k.set pid process).phase = Function.update k.phase pid process.phase := by
  funext other
  by_cases same : other = pid
  · subst same
    simp [Kernel.phase, Kernel.set]
  · simp [Kernel.phase, Kernel.set, same]

/-- Replacing a process by one of the same phase changes no phase. -/
theorem phase_set_same {process : Process} (same : process.phase = k.phase pid) :
    (k.set pid process).phase = k.phase := by
  rw [phase_set, same, Function.update_eq_self]

/-- Some processes that had ended were reaped, and nothing else happened. -/
structure Reaps (k l : Kernel) : Prop where
  phase : ∀ pid, l.phase pid = k.phase pid ∨ (k.phase pid = .ended ∧ l.phase pid = .reaped)
  now : l.now = k.now
  alarm : l.alarm = k.alarm

namespace Reaps

theorem refl (k : Kernel) : Reaps k k := ⟨fun _ => Or.inl rfl, rfl, rfl⟩

theorem trans (first : Reaps k l) (second : Reaps l m) : Reaps k m where
  phase := by
    intro pid
    rcases first.phase pid with same | ⟨ended, reaped⟩
    · rw [← same]
      exact second.phase pid
    · rcases second.phase pid with same | ⟨still, _⟩
      · exact Or.inr ⟨ended, same.trans reaped⟩
      · rw [reaped] at still
        exact absurd still (by simp)
  now := second.now.trans first.now
  alarm := second.alarm.trans first.alarm

/-- The living are the same. -/
theorem alive (reaps : Reaps k l) : l.phase pid = .alive ↔ k.phase pid = .alive := by
  rcases reaps.phase pid with same | ⟨ended, reaped⟩
  · rw [same]
  · rw [ended, reaped]
    simp

/-- No process appears. -/
theorem absent (reaps : Reaps k l) : l.phase pid = .absent ↔ k.phase pid = .absent := by
  rcases reaps.phase pid with same | ⟨ended, reaped⟩
  · rw [same]
  · rw [ended, reaped]
    simp

/-- What was reaped stays so. -/
theorem reaped (reaps : Reaps k l) (gone : k.phase pid = .reaped) : l.phase pid = .reaped := by
  rcases reaps.phase pid with same | ⟨ended, _⟩
  · rw [same, gone]
  · rw [gone] at ended
    exact absurd ended (by simp)

end Reaps

/-- Waiting for a process that is not there fails. -/
theorem waitpid_gone (gone : k.phase pid = .absent ∨ k.phase pid = .reaped) :
    k.waitpid pid = (.failed, k) := by
  unfold Kernel.phase at gone
  unfold Kernel.waitpid
  rcases found : k.table pid with _ | ⟨_ | _⟩ | ⟨_ | _⟩ | _ | _ <;> rw [found] at gone <;>
    simp_all [Process.phase]

/-- Waiting for a living process reports its news and changes no phase. -/
theorem waitpid_alive (alive : k.phase pid = .alive) :
    ∃ l, k.waitpid pid = (((k.news pid).map fun c => Wait.success (.changed c)).getD .nothing, l) ∧
      l.phase = k.phase ∧ l.now = k.now ∧ l.alarm = k.alarm := by
  have table := alive
  unfold Kernel.phase at table
  unfold Kernel.waitpid Kernel.news
  rcases found : k.table pid with _ | ⟨_ | _⟩ | ⟨_ | _⟩ | _ | _ <;> rw [found] at table <;>
    simp [Process.phase] at table
  · exact ⟨k, rfl, rfl, rfl, rfl⟩
  · exact ⟨_, rfl, phase_set_same alive.symm, rfl, rfl⟩
  · exact ⟨k, rfl, rfl, rfl, rfl⟩
  · exact ⟨_, rfl, phase_set_same alive.symm, rfl, rfl⟩

/-- Waiting for a process that has ended reaps it. -/
theorem waitpid_ended (ended : k.phase pid = .ended) :
    ∃ ending l, k.waitpid pid = (.success (.ended ending), l) ∧
      l.phase = Function.update k.phase pid .reaped ∧ l.now = k.now ∧ l.alarm = k.alarm := by
  unfold Kernel.phase at ended
  unfold Kernel.waitpid
  rcases found : k.table pid with _ | ⟨_ | _⟩ | ⟨_ | _⟩ | _ | _ <;> rw [found] at ended <;>
    simp [Process.phase] at ended
  exact ⟨_, _, rfl, phase_set k pid .reaped, rfl, rfl⟩

/-- Waiting only reaps. -/
theorem waitpid_reaps (k : Kernel) (pid : Int) : Reaps k (k.waitpid pid).2 := by
  cases phase : k.phase pid with
  | absent =>
    rw [waitpid_gone (Or.inl phase)]
    exact Reaps.refl k
  | reaped =>
    rw [waitpid_gone (Or.inr phase)]
    exact Reaps.refl k
  | alive =>
    obtain ⟨l, waits, same, now, alarm⟩ := waitpid_alive phase
    rw [waits]
    exact ⟨fun pid => Or.inl (congrFun same pid), now, alarm⟩
  | ended =>
    obtain ⟨ending, l, waits, same, now, alarm⟩ := waitpid_ended phase
    rw [waits]
    refine ⟨fun other => ?_, now, alarm⟩
    simp only [same]
    by_cases here : other = pid
    · subst here
      exact Or.inr ⟨phase, Function.update_self other _ _⟩
    · exact Or.inl (Function.update_of_ne here _ _)

/-- Waiting for a process leaves the others, and what has not ended, as it is. -/
theorem waitpid_phase_other (either : other ≠ pid ∨ k.phase pid ≠ .ended) :
    (k.waitpid pid).2.phase other = k.phase other := by
  cases phase : k.phase pid with
  | absent => rw [waitpid_gone (Or.inl phase)]
  | reaped => rw [waitpid_gone (Or.inr phase)]
  | alive =>
    obtain ⟨l, waits, same, _⟩ := waitpid_alive phase
    rw [waits]
    exact congrFun same other
  | ended =>
    obtain ⟨ending, l, waits, same, _⟩ := waitpid_ended phase
    rw [waits]
    simp only [same]
    exact Function.update_of_ne (either.resolve_right (not_not.mpr phase)) _ _

/-- A signal to a process that is not there fails. -/
theorem kill_gone {signal : Int} (gone : k.phase pid = .absent ∨ k.phase pid = .reaped) :
    k.kill pid signal = none := by
  unfold Kernel.phase at gone
  unfold Kernel.kill
  rcases found : k.table pid with _ | _ | _ | _ | _ <;> rw [found] at gone <;>
    simp_all [Process.phase]

/-- A signal to a process that has ended does nothing. -/
theorem kill_ended (signal : Int) (ended : k.phase pid = .ended) :
    ∃ l, k.kill pid signal = some l ∧ l.phase = k.phase ∧ l.now = k.now ∧ l.alarm = k.alarm := by
  have phase := ended
  unfold Kernel.phase at phase
  unfold Kernel.kill
  rcases found : k.table pid with _ | _ | _ | _ | _ <;> rw [found] at phase <;>
    simp [Process.phase] at phase
  exact ⟨_, rfl, phase_set_same ended.symm, rfl, rfl⟩

/-- `SIGKILL` alone ends a living process at once. -/
theorem deliver_phase {process : Process} (signal : Int) (alive : process.phase = .alive) :
    (process.deliver signal).phase = if signal = SIGKILL then .ended else .alive := by
  cases process with
  | running news =>
    simp only [Process.deliver]
    split
    · rfl
    · split <;> rfl
  | stopped news =>
    simp only [Process.deliver]
    split
    · rfl
    · split <;> rfl
  | terminated ending => simp [Process.phase] at alive
  | reaped => simp [Process.phase] at alive

/-- A signal to a living process ends it when it is `SIGKILL`. -/
theorem kill_alive (signal : Int) (alive : k.phase pid = .alive) :
    ∃ l, k.kill pid signal = some l ∧
      l.phase = Function.update k.phase pid (if signal = SIGKILL then .ended else .alive) ∧
      l.now = k.now ∧ l.alarm = k.alarm := by
  have phase := alive
  unfold Kernel.phase at phase
  unfold Kernel.kill
  rcases found : k.table pid with _ | news | news | _ | _ <;> rw [found] at phase <;>
    simp [Process.phase] at phase
  · exact ⟨_, rfl, by rw [phase_set, deliver_phase signal rfl], rfl, rfl⟩
  · exact ⟨_, rfl, by rw [phase_set, deliver_phase signal rfl], rfl, rfl⟩

/-- A signal reaps nobody. -/
theorem kill_waitable {signal : Int} (kills : k.kill pid signal = some l) (waitable : k.Waitable other) :
    l.Waitable other := by
  cases phase : k.phase pid with
  | absent =>
    rw [kill_gone (Or.inl phase)] at kills
    exact absurd kills (by simp)
  | reaped =>
    rw [kill_gone (Or.inr phase)] at kills
    exact absurd kills (by simp)
  | ended =>
    obtain ⟨m, killed, same, _⟩ := kill_ended signal phase
    obtain rfl := Option.some.inj (killed.symm.trans kills)
    exact waitable.of_phase (congrFun same other)
  | alive =>
    obtain ⟨m, killed, same, _⟩ := kill_alive signal phase
    obtain rfl := Option.some.inj (killed.symm.trans kills)
    unfold Kernel.Waitable
    rw [same]
    by_cases here : other = pid
    · subst here
      rw [Function.update_self]
      split
      · exact Or.inr rfl
      · exact Or.inl rfl
    · rw [Function.update_of_ne here]
      exact waitable

/-- The same process has the same phase. -/
theorem phase_congr (same : l.table pid = k.table pid) : l.phase pid = k.phase pid := by
  unfold Kernel.phase
  rw [same]

/-- Waiting for a process looks at no other. -/
theorem waitpid_table (differs : other ≠ pid) : (k.waitpid pid).2.table other = k.table other := by
  unfold Kernel.waitpid
  split <;> first | rfl | exact Function.update_of_ne differs _ _

/-- A signal to a process reaches no other. -/
theorem kill_table {signal : Int} (kills : k.kill pid signal = some l) (differs : other ≠ pid) :
    l.table other = k.table other := by
  unfold Kernel.kill at kills
  split at kills
  · exact absurd kills (by simp)
  · exact absurd kills (by simp)
  · obtain rfl := Option.some.inj kills
    exact Function.update_of_ne differs _ _

/-- `SIGKILL` ends a living process. -/
theorem kill_table_self (kills : k.kill pid SIGKILL = some l) (alive : k.phase pid = .alive) :
    l.table pid = some (.terminated (.signaled SIGKILL)) := by
  unfold Kernel.phase at alive
  unfold Kernel.kill at kills
  rcases found : k.table pid with _ | news | news | _ | _ <;> rw [found] at alive kills <;>
    simp only [Option.map_some, Option.map_none, Option.getD_some, Option.getD_none, Process.phase,
      reduceCtorEq] at alive
  · obtain rfl := Option.some.inj kills
    exact Function.update_self _ _ _
  · obtain rfl := Option.some.inj kills
    exact Function.update_self _ _ _

/-- A signal other than `SIGKILL` changes no phase. -/
theorem kill_phase {signal : Int} (mild : signal ≠ SIGKILL) (kills : k.kill pid signal = some l) :
    l.phase = k.phase ∧ l.now = k.now ∧ l.alarm = k.alarm := by
  cases phase : k.phase pid with
  | absent =>
    rw [kill_gone (Or.inl phase)] at kills
    exact absurd kills (by simp)
  | reaped =>
    rw [kill_gone (Or.inr phase)] at kills
    exact absurd kills (by simp)
  | ended =>
    obtain ⟨m, killed, same⟩ := kill_ended signal phase
    obtain rfl := Option.some.inj (killed.symm.trans kills)
    exact same
  | alive =>
    obtain ⟨m, killed, same, rest⟩ := kill_alive signal phase
    obtain rfl := Option.some.inj (killed.symm.trans kills)
    rw [if_neg mild, ← phase, Function.update_eq_self] at same
    exact ⟨same, rest⟩

/-- The same process is stopped or not. -/
theorem isStopped_congr (same : l.table pid = k.table pid) : l.isStopped pid = k.isStopped pid := by
  unfold Kernel.isStopped
  rw [same]

theorem isStopped_set (k : Kernel) (pid other : Int) (process : Process) : (k.set pid process).isStopped other =
    if other = pid then process.isStopped else k.isStopped other := by
  unfold Kernel.isStopped Kernel.set
  split
  · next here => simp [here]
  · next differs => simp [Function.update_of_ne differs]

/-- Waiting neither stops nor continues a process. -/
theorem waitpid_isStopped (k : Kernel) (pid other : Int) :
    (k.waitpid pid).2.isStopped other = k.isStopped other := by
  by_cases here : other = pid
  · subst here
    unfold Kernel.waitpid
    rcases found : k.table other with _ | ⟨_ | _⟩ | ⟨_ | _⟩ | _ | _ <;>
      simp [isStopped_set, Process.isStopped] <;> simp [Kernel.isStopped, found, Process.isStopped]
  · exact isStopped_congr (waitpid_table here)

/-- `SIGSTOP` stops a process that lives on, `SIGCONT` continues it, and no other
signal does either. -/
theorem deliver_isStopped {process : Process} {signal : Int} (alive : (process.deliver signal).phase = .alive) :
    (process.deliver signal).isStopped =
      if signal = SIGSTOP then true else if signal = SIGCONT then false else process.isStopped := by
  have differ : SIGCONT ≠ SIGSTOP := by decide
  have killed : signal ≠ SIGKILL := by
    rintro rfl
    cases process <;> simp [Process.deliver, Process.phase] at alive
  cases process with
  | running news =>
    simp only [Process.deliver, if_neg killed]
    split
    · rfl
    · simp [Process.isStopped]
  | stopped news =>
    simp only [Process.deliver, if_neg killed]
    split
    · next continued => simp [continued, differ, Process.isStopped]
    · simp [Process.isStopped]
  | terminated ending => exact absurd alive (by simp [Process.deliver, Process.phase])
  | reaped => exact absurd alive (by simp [Process.deliver, Process.phase])

/-- A signal other than these two leaves a living process stopped or not. -/
theorem kill_isStopped {signal : Int} (kills : k.kill pid signal = some l) (alive : l.phase pid = .alive) :
    l.isStopped pid =
      if signal = SIGSTOP then true else if signal = SIGCONT then false else k.isStopped pid := by
  unfold Kernel.kill at kills
  split at kills
  · exact absurd kills (by simp)
  · exact absurd kills (by simp)
  · next process _ found =>
    obtain rfl := Option.some.inj kills
    rw [phase_set, Function.update_self] at alive
    rw [isStopped_set, if_pos rfl, deliver_isStopped alive]
    simp [Kernel.isStopped, found]

/-- `SIGCONT` continues a stopped process. -/
theorem kill_continues (kills : k.kill pid SIGCONT = some l) (stopped : k.isStopped pid = true) :
    l.table pid = some (.running (some .continued)) := by
  unfold Kernel.isStopped at stopped
  unfold Kernel.kill at kills
  rcases found : k.table pid with _ | news | news | _ | _ <;> rw [found] at stopped kills <;>
    simp only [Option.map_some, Option.map_none, Option.getD_some, Option.getD_none, Process.isStopped,
      Bool.false_eq_true] at stopped
  obtain rfl := Option.some.inj kills
  exact Function.update_self _ _ _

end OperatingSystems.Smash
