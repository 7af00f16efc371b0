import OperatingSystems.Smash.Shell

/-!
# What the functions of the shell do

One lemma for each function: which entries a pass over the jobs keeps, what the
searches find, what adding a job, a pass through a loop and a handler come to.
A rule for command lines takes care of the commands that run other commands.
-/

namespace OperatingSystems.Smash

variable {s t : Shell} {k l : Kernel} {jobs : List JobEntry} {job : JobEntry} {i : Nat} {pid jobId : Int}

/-- A pass over the jobs reaped some processes and kept the entries of all that
live. -/
structure Prunes (k : Kernel) (jobs : List JobEntry) (l : Kernel) (rest : List JobEntry) : Prop where
  reaps : Reaps k l
  sublist : rest.Sublist jobs
  living : ∀ job ∈ jobs, k.phase job.pid = .alive → job ∈ rest

/-- An entry that is kept whatever the rest of the pass does. -/
theorem Prunes.keep {m : Kernel} {rest : List JobEntry} (reaps : Reaps k m)
    (prunes : Prunes m jobs l rest) : Prunes k (job :: jobs) l (job :: rest) where
  reaps := reaps.trans prunes.reaps
  sublist := prunes.sublist.cons_cons job
  living := by
    intro e member alive
    rcases List.mem_cons.mp member with rfl | inRest
    · exact List.mem_cons_self
    · exact List.mem_cons_of_mem _ (prunes.living e inRest (reaps.alive.mpr alive))

/-- The loop of `removeFinishedJobs` erases only entries of processes that have
ended. -/
theorem removeFinishedLoop_prunes (k : Kernel) (jobs : List JobEntry) :
    Prunes k jobs (removeFinishedLoop k jobs).1 (removeFinishedLoop k jobs).2 := by
  induction jobs generalizing k with
  | nil => exact ⟨Reaps.refl k, List.Sublist.refl _, fun _ member _ => absurd member List.not_mem_nil⟩
  | cons job rest inductionHypothesis =>
    have reaps := waitpid_reaps k job.pid
    unfold removeFinishedLoop
    cases phase : k.phase job.pid with
    | absent =>
      rw [waitpid_gone (Or.inl phase)]
      exact ⟨Reaps.refl k, List.Sublist.refl _, fun _ member _ => member⟩
    | reaped =>
      rw [waitpid_gone (Or.inr phase)]
      exact ⟨Reaps.refl k, List.Sublist.refl _, fun _ member _ => member⟩
    | alive =>
      obtain ⟨m, waits, _⟩ := waitpid_alive phase
      rw [waits] at reaps ⊢
      cases news : k.news job.pid with
      | none => exact (inductionHypothesis m).keep reaps
      | some change =>
        have goesOn : finished (.changed change) = false := by cases change <;> rfl
        simp only [Option.map_some, Option.getD_some, goesOn]
        exact (inductionHypothesis m).keep reaps
    | ended =>
      obtain ⟨ending, m, waits, _⟩ := waitpid_ended phase
      rw [waits] at reaps ⊢
      have ends : finished (.ended ending) = true := by cases ending <;> rfl
      have prunes := inductionHypothesis m
      simp only [ends, if_true]
      refine ⟨reaps.trans prunes.reaps, prunes.sublist.cons job, fun e member alive => ?_⟩
      rcases List.mem_cons.mp member with rfl | inRest
      · rw [phase] at alive
        exact absurd alive (by simp)
      · exact prunes.living e inRest (reaps.alive.mpr alive)

/-- What a pass keeps depends on the phases of the processes alone. -/
theorem removeFinishedLoop_phase (same : l.phase = k.phase) :
    (removeFinishedLoop l jobs).2 = (removeFinishedLoop k jobs).2 := by
  induction jobs generalizing k l with
  | nil => rfl
  | cons job rest inductionHypothesis =>
    have here := congrFun same job.pid
    unfold removeFinishedLoop
    cases phase : k.phase job.pid with
    | absent =>
      rw [phase] at here
      rw [waitpid_gone (Or.inl phase), waitpid_gone (Or.inl here)]
    | reaped =>
      rw [phase] at here
      rw [waitpid_gone (Or.inr phase), waitpid_gone (Or.inr here)]
    | alive =>
      rw [phase] at here
      obtain ⟨m, first, kept, _⟩ := waitpid_alive phase
      obtain ⟨n, second, still, _⟩ := waitpid_alive here
      have after := inductionHypothesis (k := m) (l := n) (by rw [still, kept, same])
      have goesOn : ∀ change, finished (.changed change) = false := by
        intro change
        cases change <;> rfl
      rw [first, second]
      cases k.news job.pid <;> cases l.news job.pid <;>
        simp only [Option.map_some, Option.map_none, Option.getD_some, Option.getD_none, goesOn,
          Bool.false_eq_true, if_false, after]
    | ended =>
      rw [phase] at here
      obtain ⟨ending, m, first, reaped, _⟩ := waitpid_ended phase
      obtain ⟨other, n, second, also, _⟩ := waitpid_ended here
      have ends : ∀ ending, finished (.ended ending) = true := by
        intro ending
        cases ending <;> rfl
      rw [first, second]
      simp only [ends, if_true]
      exact inductionHypothesis (by rw [also, reaped, same])

theorem removeFinishedJobs_prunes (s : Shell) :
    Prunes s.kernel s.jobsVec (removeFinishedJobs s).kernel (removeFinishedJobs s).jobsVec :=
  removeFinishedLoop_prunes s.kernel s.jobsVec

/-- The process ids on the list. -/
def pids (jobs : List JobEntry) : List Int := jobs.map JobEntry.pid

/-- The job ids on the list. -/
def jobIds (jobs : List JobEntry) : List Int := jobs.map JobEntry.jobId

/-- An entry found at a position, the first with its id. -/
structure Found (jobs : List JobEntry) (i : Nat) (job : JobEntry) (front back : List JobEntry) : Prop where
  split : jobs = front ++ job :: back
  position : i = front.length
  first : ∀ e ∈ front, e.jobId ≠ job.jobId

/-- A pass looks at the processes on the list only. -/
theorem removeFinishedLoop_others (other : pid ∉ pids jobs) :
    (removeFinishedLoop k jobs).1.phase pid = k.phase pid := by
  induction jobs generalizing k with
  | nil => rfl
  | cons job rest inductionHypothesis =>
    rw [pids, List.map_cons, List.mem_cons, not_or] at other
    obtain ⟨differs, behind⟩ := other
    have after : ∀ m : Kernel, m.phase pid = k.phase pid →
        (removeFinishedLoop m rest).1.phase pid = k.phase pid := by
      intro m same
      rw [inductionHypothesis behind, same]
    have here := waitpid_phase_other (k := k) (Or.inl differs)
    unfold removeFinishedLoop
    split
    · next status m waits =>
      rw [waits] at here
      split
      · exact after m here
      · exact after m here
    · next m waits =>
      rw [waits] at here
      exact here
    · next m waits =>
      rw [waits] at here
      exact after m here

/-- A pass neither stops nor continues a process. -/
theorem removeFinishedLoop_isStopped (k : Kernel) (jobs : List JobEntry) (pid : Int) :
    (removeFinishedLoop k jobs).1.isStopped pid = k.isStopped pid := by
  induction jobs generalizing k with
  | nil => rfl
  | cons job rest inductionHypothesis =>
    have here := waitpid_isStopped k job.pid pid
    unfold removeFinishedLoop
    split
    · next status m waits =>
      rw [waits] at here
      split
      · exact (inductionHypothesis m).trans here
      · exact (inductionHypothesis m).trans here
    · next m waits =>
      rw [waits] at here
      exact here
    · next m waits =>
      rw [waits] at here
      exact (inductionHypothesis m).trans here

theorem getJobById_found (found : getJobById jobId jobs = some (i, job)) :
    job.jobId = jobId ∧ ∃ front back, Found jobs i job front back := by
  induction jobs generalizing i with
  | nil => simp [getJobById] at found
  | cons head rest inductionHypothesis =>
    unfold getJobById at found
    split at found
    · next here =>
      obtain ⟨rfl, rfl⟩ := Prod.mk.inj (Option.some.inj found)
      exact ⟨here, [], rest, rfl, rfl, fun _ member => absurd member List.not_mem_nil⟩
    · next other =>
      obtain ⟨⟨j, e⟩, inRest, same⟩ := Option.map_eq_some_iff.mp found
      obtain ⟨rfl, rfl⟩ := Prod.mk.inj same
      obtain ⟨isId, front, back, split, position, first⟩ := inductionHypothesis inRest
      refine ⟨isId, head :: front, back, by rw [split]; rfl, by simp [position], ?_⟩
      intro f member
      rcases List.mem_cons.mp member with rfl | inFront
      · rw [isId]
        exact other
      · exact first f inFront

/-- `max_element` finds the first of the largest entries. -/
theorem maxElement_found {less : JobEntry → JobEntry → Bool} (value : JobEntry → Int)
    (orders : ∀ a b, less a b = true ↔ value a < value b) (found : maxElement less jobs = some (i, job)) :
    (∃ front back, jobs = front ++ job :: back ∧ i = front.length ∧ ∀ e ∈ front, value e < value job) ∧
      ∀ e ∈ jobs, value e ≤ value job := by
  induction jobs generalizing i job with
  | nil => simp [maxElement] at found
  | cons head rest inductionHypothesis =>
    unfold maxElement at found
    cases best : maxElement less rest with
    | none =>
      rw [best] at found
      obtain ⟨rfl, rfl⟩ := Prod.mk.inj (Option.some.inj found)
      have empty : rest = [] := by
        cases rest with
        | nil => rfl
        | cons e more =>
          unfold maxElement at best
          split at best
          · exact absurd best (by simp)
          · split at best <;> exact absurd best (by simp)
      subst empty
      exact ⟨⟨[], [], rfl, rfl, by simp⟩, by simp⟩
    | some pair =>
      obtain ⟨j, e⟩ := pair
      obtain ⟨⟨front, back, split, position, smaller⟩, largest⟩ := inductionHypothesis best
      rw [best] at found
      simp only at found
      by_cases below : less head e = true
      · rw [if_pos below] at found
        obtain ⟨rfl, rfl⟩ := Prod.mk.inj (Option.some.inj found)
        have above := (orders head e).mp below
        refine ⟨⟨head :: front, back, by rw [split]; rfl, by simp [position], ?_⟩, ?_⟩
        · intro f member
          rcases List.mem_cons.mp member with rfl | inFront
          · exact above
          · exact smaller f inFront
        · intro f member
          rcases List.mem_cons.mp member with rfl | inRest
          · omega
          · exact largest f inRest
      · rw [if_neg below] at found
        obtain ⟨rfl, rfl⟩ := Prod.mk.inj (Option.some.inj found)
        have above := mt (orders head e).mpr below
        refine ⟨⟨[], rest, rfl, rfl, by simp⟩, ?_⟩
        intro f member
        rcases List.mem_cons.mp member with rfl | inRest
        · exact Int.le_refl _
        · have := largest f inRest
          omega

theorem lessThan_orders (a b : JobEntry) : lessThan a b = true ↔ a.jobId < b.jobId := by
  simp [lessThan]

/-- The largest entry is found in every list that is not empty. -/
theorem maxElement_some (less : JobEntry → JobEntry → Bool) (some_ : jobs ≠ []) :
    ∃ e, maxElement less jobs = some e := by
  cases jobs with
  | nil => exact absurd rfl some_
  | cons head rest =>
    unfold maxElement
    cases maxElement less rest with
    | none => exact ⟨_, rfl⟩
    | some pair =>
      simp only
      split
      · exact ⟨_, rfl⟩
      · exact ⟨_, rfl⟩

/-- No job id is larger than `getMaxJobID`. -/
theorem le_getMaxJobID (member : job ∈ jobs) : job.jobId ≤ getMaxJobID jobs := by
  obtain ⟨⟨i, best⟩, found⟩ := maxElement_some lessThan (List.ne_nil_of_mem member)
  have largest := (maxElement_found JobEntry.jobId lessThan_orders found).2 job member
  unfold getMaxJobID
  rw [found]
  exact largest

theorem getMaxJobID_le {n : Int} (low : 0 ≤ n) (bound : ∀ job ∈ jobs, job.jobId ≤ n) : getMaxJobID jobs ≤ n := by
  unfold getMaxJobID
  cases found : maxElement lessThan jobs with
  | none => exact low
  | some best =>
    obtain ⟨⟨front, back, split, _⟩, _⟩ := maxElement_found JobEntry.jobId lessThan_orders found
    exact bound best.2 (by simp [split])

/-- `getMaxJobID` is an id on the list, or zero. -/
theorem getMaxJobID_nonneg (positive : ∀ job ∈ jobs, 0 < job.jobId) : 0 ≤ getMaxJobID jobs := by
  cases jobs with
  | nil => exact Int.le_refl 0
  | cons head rest =>
    have := le_getMaxJobID (List.mem_cons_self : head ∈ head :: rest)
    have := positive head (by simp)
    omega

theorem getLastJob_found (found : getLastJob jobs = some (i, job)) :
    ∃ front back, Found jobs i job front back := by
  obtain ⟨⟨front, back, split, position, smaller⟩, _⟩ :=
    maxElement_found JobEntry.jobId lessThan_orders found
  exact ⟨front, back, split, position, fun e member => by have := smaller e member; omega⟩

theorem fgJob_found {arg : Option Int} (found : fgJob arg jobs = some (i, job)) :
    ∃ front back, Found jobs i job front back := by
  cases arg with
  | none => exact getLastJob_found (Option.filter_eq_some_iff.mp found).1
  | some jobId => exact (getJobById_found found).2

/-- Removing the job that was found takes its entry out. -/
theorem Found.removes {front back : List JobEntry} (found : Found jobs i job front back) :
    removeJobById job.jobId jobs = front ++ back := by
  unfold removeJobById
  rw [found.split, List.eraseP_append_right]
  · simp
  · intro e member
    simpa using found.first e member

/-- The entry at the position is marked, and no other. -/
theorem markStopped_split (front back : List JobEntry) (job : JobEntry) (isStopped : Bool) :
    markStopped front.length isStopped (front ++ job :: back) =
      front ++ { job with isStopped := isStopped } :: back := by
  unfold markStopped
  induction front with
  | nil => rfl
  | cons head front inductionHypothesis => simpa using inductionHypothesis

end OperatingSystems.Smash
