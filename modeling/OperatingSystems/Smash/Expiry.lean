import OperatingSystems.Smash.Alarm

/-!
# What the handler of the alarm kills

The loop of `killTimedCmmands` stops at the first process that another loop has
reaped, and a process with a change to report is not tested against its deadline.
Without either, the handler kills exactly the processes that are overdue.
-/

namespace OperatingSystems.Smash

open Runs

variable {s t : Shell} {k l m : Kernel} {timed rest : List (Nat × TimedCmd)} {it e : Nat × TimedCmd}
  {stays : Bool}

/-- The process of an entry lives and its time is up. -/
def Overdue (k : Kernel) (e : Nat × TimedCmd) : Prop := k.phase e.2.pid = .alive ∧ e.2.deadline ≤ k.now

instance (k : Kernel) (e : Nat × TimedCmd) : Decidable (Overdue k e) := inferInstanceAs (Decidable (_ ∧ _))

/-- The entry is that of a process that goes on. -/
def goesOn (k : Kernel) (e : Nat × TimedCmd) : Bool := k.phase e.2.pid = .alive ∧ ¬Overdue k e

/-- A call of `killTimedCmmands` kills the processes that are overdue and no
others, and the entries that stay are those of the living. -/
structure KillsOverdue (s : Shell) : Prop where
  killed : ∀ e ∈ s.timedCmds, Overdue s.kernel e →
    (killTimedCmmands s).kernel.table e.2.pid = some (.terminated (.signaled SIGKILL))
  spared : ∀ pid, s.kernel.phase pid = .alive → (∀ e ∈ s.timedCmds, e.2.pid = pid → ¬Overdue s.kernel e) →
    (killTimedCmmands s).kernel.phase pid = .alive
  kept : (killTimedCmmands s).timedCmds = s.timedCmds.filter (goesOn s.kernel)

/-- The loop can wait for the process of an entry, and `waitpid` has nothing to
report of it when it is overdue. -/
def Testable (k : Kernel) (e : Nat × TimedCmd) : Prop :=
  k.phase e.2.pid ≠ .reaped ∧ (Overdue k e → k.news e.2.pid = none)

/-- Overdue and testable depend on the process and the time alone. -/
theorem Handles.overdue (handles : Handles k it m stays) (same : m.table e.2.pid = k.table e.2.pid) :
    Overdue m e ↔ Overdue k e := by
  unfold Overdue
  rw [phase_congr same, handles.fades.now]

theorem Handles.testable (handles : Handles k it m stays) (same : m.table e.2.pid = k.table e.2.pid) :
    Testable m e ↔ Testable k e := by
  unfold Testable
  rw [handles.overdue same, phase_congr same]
  unfold Kernel.news
  rw [same]

/-- An entry that the loop stops at is that of a process that was reaped. -/
theorem reaped_of_not_waitable (known : ∀ pid ∈ timedPids (it :: rest), k.phase pid ≠ .absent)
    (somebody : it.2.pid ≠ -1) (refused : ¬k.Waitable it.2.pid) : k.phase it.2.pid = .reaped := by
  have listed : it.2.pid ∈ timedPids (it :: rest) := mem_timedPids.mpr ⟨somebody, it, List.mem_cons_self, rfl⟩
  by_contra other
  exact refused (waitable_iff.mpr ⟨known _ listed, other⟩)

/-- What is known of the processes on the list is known of those behind an entry. -/
theorem Handles.known (handles : Handles k it m stays)
    (known : ∀ pid ∈ timedPids (it :: rest), k.phase pid ≠ .absent) :
    ∀ pid ∈ timedPids rest, m.phase pid ≠ .absent := by
  intro pid listed
  rw [Ne, handles.fades.absent]
  exact known pid ((timedPids_sublist (List.sublist_cons_self it rest)).subset listed)

/-- An entry that cannot be tested is still there after the loop, whatever comes
before it. -/
theorem killTimedLoop_keeps (distinct : (timedPids timed).Nodup) (nobody : k.phase (-1) = .absent)
    (member : e ∈ timed) (untestable : ¬Testable k e) : e ∈ (killTimedLoop k timed).2 := by
  induction timed generalizing k with
  | nil => exact absurd member List.not_mem_nil
  | cons it rest inductionHypothesis =>
    rcases killTimedLoop_cons k it rest with ⟨_, _, stops⟩ | ⟨m, stays, handles, continues⟩
    · rw [stops]
      exact member
    · rw [continues]
      rcases List.mem_cons.mp member with rfl | behind
      · -- The loop goes on behind the entry, which it has not erased.
        cases stays with
        | true => exact List.mem_cons_self
        | false =>
          exfalso
          apply untestable
          rcases handles.gone rfl with none | ⟨ended, _⟩ | ⟨alive, news, _⟩
          · rw [← none] at nobody
            simp [Testable, Overdue, nobody]
          · simp [Testable, Overdue, ended]
          · exact ⟨by simp [alive], fun _ => news⟩
      · have same := handles.apart distinct behind
        have there := inductionHypothesis (k := m) (timedPids_tail distinct) ((handles.fades.absent _).mpr nobody)
          behind (mt (handles.testable same).mp untestable)
        cases stays with
        | true => exact List.mem_cons_of_mem _ there
        | false => exact there

/-- The loop looks at the processes on the list only. -/
theorem killTimedLoop_others {pid : Int} (other : ∀ e ∈ timed, e.2.pid ≠ pid) :
    (killTimedLoop k timed).1.table pid = k.table pid := by
  induction timed generalizing k with
  | nil => rfl
  | cons it rest inductionHypothesis =>
    rw [List.forall_mem_cons] at other
    rcases killTimedLoop_cons k it rest with ⟨_, _, stops⟩ | ⟨m, stays, handles, continues⟩
    · rw [stops]
    · rw [continues, inductionHypothesis other.2]
      exact handles.others pid other.1.symm

/-- What the loop makes of entries that can all be tested. -/
structure Sweeps (k : Kernel) (timed : List (Nat × TimedCmd)) : Prop where
  killed : ∀ e ∈ timed, Overdue k e →
    (killTimedLoop k timed).1.table e.2.pid = some (.terminated (.signaled SIGKILL))
  spared : ∀ e ∈ timed, goesOn k e = true → (killTimedLoop k timed).1.phase e.2.pid = .alive
  kept : (killTimedLoop k timed).2 = timed.filter (goesOn k)

/-- An entry that is handled and can be tested stays exactly when its process goes
on. -/
theorem Handles.stays_iff (handles : Handles k it m stays) (nobody : k.phase (-1) = .absent)
    (testable : Testable k it) : stays = goesOn k it := by
  cases stays with
  | true =>
    obtain ⟨alive, _, news | early⟩ := handles.spared rfl
    · have current : ¬Overdue k it := mt testable.2 news
      simp [goesOn, alive, current]
    · have current : ¬Overdue k it := by
        rintro ⟨_, due⟩
        unfold TimedCmd.deadline at due
        omega
      simp [goesOn, alive, current]
  | false =>
    rcases handles.gone rfl with none | ⟨ended, _⟩ | ⟨alive, _, late, _⟩
    · rw [← none] at nobody
      simp [goesOn, nobody]
    · simp [goesOn, ended]
    · have overdue : Overdue k it := by
        refine ⟨alive, ?_⟩
        unfold TimedCmd.deadline
        omega
      simp [goesOn, overdue]

/-- Each entry that can be tested is dealt with, and so are all. -/
theorem killTimedLoop_sweeps (distinct : (timedPids timed).Nodup) (nobody : k.phase (-1) = .absent)
    (known : ∀ pid ∈ timedPids timed, k.phase pid ≠ .absent) (testable : ∀ e ∈ timed, Testable k e) :
    Sweeps k timed := by
  induction timed generalizing k with
  | nil => exact ⟨fun e member => absurd member List.not_mem_nil, fun e member => absurd member List.not_mem_nil, rfl⟩
  | cons it rest inductionHypothesis =>
    rw [List.forall_mem_cons] at testable
    rcases killTimedLoop_cons k it rest with ⟨somebody, refused, _⟩ | ⟨m, stays, handles, continues⟩
    · exact absurd (reaped_of_not_waitable known somebody refused) testable.1.1
    · have same : ∀ e ∈ rest, m.table e.2.pid = k.table e.2.pid := fun e member => handles.apart distinct member
      have late : ∀ e ∈ rest, (Overdue m e ↔ Overdue k e) := fun e member => handles.overdue (same e member)
      have agree : ∀ e ∈ rest, goesOn m e = goesOn k e := by
        intro e member
        simp only [goesOn, phase_congr (same e member), late e member]
      have sweeps : Sweeps m rest := inductionHypothesis (timedPids_tail distinct)
        ((handles.fades.absent _).mpr nobody) (handles.known known)
        fun e member => (handles.testable (same e member)).mpr (testable.2 e member)
      have stays_ := handles.stays_iff nobody testable.1
      -- Behind the entry its process is not touched again.
      have settled : it.2.pid ≠ -1 → (killTimedLoop m rest).1.table it.2.pid = m.table it.2.pid := by
        intro somebody
        apply killTimedLoop_others
        exact fun e member => timedPids_apart distinct somebody member
      have living : k.phase it.2.pid = .alive → it.2.pid ≠ -1 := by
        intro alive none
        rw [none, nobody] at alive
        exact absurd alive (by simp)
      constructor
      · rw [continues, List.forall_mem_cons]
        constructor
        · intro overdue
          rw [settled (living overdue.1)]
          have gone : stays = false := by simp [stays_, goesOn, overdue]
          rcases handles.gone gone with none | ⟨ended, _⟩ | ⟨_, _, _, killed⟩
          · exact absurd none (living overdue.1)
          · rw [overdue.1] at ended
            exact absurd ended (by simp)
          · exact killed
        · exact fun e member overdue => sweeps.killed e member ((late e member).mpr overdue)
      · rw [continues, List.forall_mem_cons]
        constructor
        · intro goes
          obtain ⟨alive, lives, _⟩ := handles.spared (stays_.trans goes)
          rw [phase_congr (settled (living alive))]
          exact lives
        · exact fun e member goes => sweeps.spared e member ((agree e member).trans goes)
      · rw [continues, List.filter_cons, ← stays_, sweeps.kept, List.filter_congr agree]

/-- In a reachable state the handler kills exactly what is overdue if and only if
no entry's process was reaped by another loop and no process that is overdue has a
change to report. -/
theorem runs_kill_iff (now : Int) (actions : List Action) :
    Ends (fun s => KillsOverdue s ↔ ∀ e ∈ s.timedCmds, Testable s.kernel e) (fun _ => True)
      (smash now actions) := by
  have ends : Ends Timed (fun _ => True) (smash now actions) := by
    refine execute_ends ?_ (start_timed now) (Obeys.always step actions (start now))
    intro action s timed _
    cases run : step action s with
    | ok t => exact timed.step run
    | error stop => trivial
  refine ends.mono fun s timed => ⟨fun exactly e member => ?_, fun testable => ?_⟩
  · by_contra untestable
    have kept : e ∈ (killTimedCmmands s).timedCmds :=
      killTimedLoop_keeps timed.distinct timed.nobody member untestable
    rw [exactly.kept, List.mem_filter] at kept
    have goes : s.kernel.phase e.2.pid = .alive ∧ ¬Overdue s.kernel e := by simpa [goesOn] using kept.2
    exact untestable ⟨by simp [goes.1], fun overdue => absurd overdue goes.2⟩
  · have sweeps := killTimedLoop_sweeps timed.distinct timed.nobody timed.known testable
    refine ⟨sweeps.killed, fun pid alive current => ?_, sweeps.kept⟩
    by_cases listed : ∃ e ∈ s.timedCmds, e.2.pid = pid
    · obtain ⟨e, member, rfl⟩ := listed
      exact sweeps.spared e member (by simp [goesOn, alive, current e member rfl])
    · have apart : ∀ e ∈ s.timedCmds, e.2.pid ≠ pid := fun e member same => listed ⟨e, member, same⟩
      exact (phase_congr (killTimedLoop_others apart)).trans alive

/-- A timed command is stopped before its time is up. -/
def stoppedBefore : List Action :=
  [.command (.timeout 1 "timeout 1 sleep 100 &" (.external "sleep 100 &" true)) (some 100),
    .change 100 (.changed .stopped), .tick]

/-- The handler does not kill it. -/
theorem run_spares_stopped : ¬∀ now actions, Ends KillsOverdue (fun _ => True) (smash now actions) := by
  intro all
  refine not_ends (fun s => decide ((killTimedCmmands s).timedCmds = s.timedCmds.filter (goesOn s.kernel)))
    (fun s exactly => decide_eq_true exactly.kept) ?_ (all 0 stoppedBefore)
  decide +kernel

end OperatingSystems.Smash
