import Mathlib.Data.List.Basic

/-!
# Runs of a machine

A run performs a list of inputs one after another and stops at the first error.
A guard restricts the inputs by the state they meet, so that it can speak of
runs whose every step satisfies a condition. One rule carries an invariant from
the steps to the runs; it says what an error may be, so that the same rule
serves machines that never fail and machines that may.
-/

namespace OperatingSystems.Runs

universe u
variable {ι σ ε : Type u}

/-- Perform the inputs in order. -/
def execute (step : ι → σ → Except ε σ) : List ι → σ → Except ε σ
  | [], s => .ok s
  | x :: xs, s =>
    match step x s with
    | .ok t => execute step xs t
    | .error fault => .error fault

/-- Every input satisfies the guard in the state it meets. -/
def Obeys (step : ι → σ → Except ε σ) (guard : ι → σ → Prop) : List ι → σ → Prop
  | [], _ => True
  | x :: xs, s => guard x s ∧
    match step x s with
    | .ok t => Obeys step guard xs t
    | .error _ => True

/-- A run obeys a guard decidably when each step does. -/
def Obeys.decide (step : ι → σ → Except ε σ) (guard : ι → σ → Prop)
    [∀ x s, Decidable (guard x s)] : (xs : List ι) → (s : σ) → Decidable (Obeys step guard xs s)
  | [], _ => isTrue trivial
  | x :: xs, s =>
    let _rest : Decidable (match step x s with
        | .ok t => Obeys step guard xs t
        | .error _ => True) :=
      match step x s with
      | .ok t => Obeys.decide step guard xs t
      | .error _ => isTrue trivial
    inferInstanceAs (Decidable (guard x s ∧ _))

instance (step : ι → σ → Except ε σ) (guard : ι → σ → Prop) [∀ x s, Decidable (guard x s)]
    (xs : List ι) (s : σ) : Decidable (Obeys step guard xs s) := Obeys.decide step guard xs s

/-- An execution ends in a state of the first kind or with an error of the
second. -/
def Ends (good : σ → Prop) (bad : ε → Prop) : Except ε σ → Prop
  | .ok t => good t
  | .error fault => bad fault

variable {step : ι → σ → Except ε σ} {guard strict : ι → σ → Prop} {good : σ → Prop}
  {bad : ε → Prop} {x : ι} {xs ys : List ι} {s t u : σ}

/-- What every guarded step keeps, every guarded run keeps. -/
theorem execute_ends {I : σ → Prop} {E : ε → Prop}
    (keeps : ∀ x s, I s → guard x s → Ends I E (step x s)) (start : I s)
    (obeys : Obeys step guard xs s) : Ends I E (execute step xs s) := by
  induction xs generalizing s with
  | nil => exact start
  | cons x xs inductionHypothesis =>
    obtain ⟨allowed, rest⟩ := obeys
    have first := keeps x s start allowed
    unfold execute
    cases result : step x s with
    | ok t =>
      rw [result] at first rest
      exact inductionHypothesis first rest
    | error fault =>
      rw [result] at first
      exact first

/-- Without possible errors a run reaches a state. -/
theorem Ends.reaches {result : Except ε σ} (ends : Ends good (fun _ => False) result) :
    ∃ t, result = .ok t ∧ good t := by
  cases result with
  | ok t => exact ⟨t, rfl, ends⟩
  | error fault => exact ends.elim

/-- A state that was reached is good. -/
theorem Ends.reached {result : Except ε σ} (ends : Ends good bad result)
    (same : result = .ok t) : good t := by
  subst same
  exact ends

/-- An error that ended a run is one of those allowed. -/
theorem Ends.failed {result : Except ε σ} {fault : ε} (ends : Ends good bad result)
    (same : result = .error fault) : bad fault := by
  subst same
  exact ends

/-- The parts of a guarded run are guarded. -/
theorem obeys_append (first : execute step xs s = .ok t) :
    Obeys step guard (xs ++ ys) s ↔ Obeys step guard xs s ∧ Obeys step guard ys t := by
  induction xs generalizing s with
  | nil =>
    obtain rfl : s = t := Except.ok.inj first
    simp [Obeys]
  | cons x xs inductionHypothesis =>
    unfold execute at first
    rw [List.cons_append, Obeys, Obeys]
    cases result : step x s with
    | ok u =>
      rw [result] at first
      simp only [inductionHypothesis first, and_assoc]
    | error fault =>
      rw [result] at first
      exact absurd first (by simp)

/-- The first part of a guarded run is guarded, also when it ends with an error. -/
theorem Obeys.front (obeys : Obeys step guard (xs ++ ys) s) : Obeys step guard xs s := by
  induction xs generalizing s with
  | nil => trivial
  | cons x xs inductionHypothesis =>
    refine ⟨obeys.1, ?_⟩
    have rest := obeys.2
    cases result : step x s with
    | ok t =>
      rw [result] at rest
      exact inductionHypothesis rest
    | error fault => trivial

/-- A weaker guard admits the same runs. -/
theorem Obeys.mono (weaker : ∀ x s, strict x s → guard x s) (obeys : Obeys step strict xs s) :
    Obeys step guard xs s := by
  induction xs generalizing s with
  | nil => trivial
  | cons x xs inductionHypothesis =>
    refine ⟨weaker x s obeys.1, ?_⟩
    have rest := obeys.2
    cases result : step x s with
    | ok t =>
      rw [result] at rest
      exact inductionHypothesis rest
    | error fault => trivial

/-- Without a guard every run is admitted. -/
theorem Obeys.always (step : ι → σ → Except ε σ) (xs : List ι) (s : σ) :
    Obeys step (fun _ _ => True) xs s := by
  induction xs generalizing s with
  | nil => trivial
  | cons x xs inductionHypothesis =>
    refine ⟨trivial, ?_⟩
    cases step x s with
    | ok t => exact inductionHypothesis t
    | error fault => trivial

/-- Among the runs that obey a first guard, those that obey a second one are the
runs in which all that the states show is good, provided a step that obeys both
keeps the invariant, and a step that breaks the second shows at once. -/
theorem obeys_iff_given {I : σ → Prop} {given : ι → σ → Prop} (shows : ∀ s, I s → good s)
    (keeps : ∀ x s, I s → given x s → guard x s → Ends I bad (step x s))
    (exposes : ∀ x s, I s → given x s → Ends good bad (step x s) → guard x s) (start : I s)
    (obeys : Obeys step given xs s) :
    Obeys step guard xs s ↔ ∀ n, Ends good bad (execute step (xs.take n) s) := by
  induction xs generalizing s with
  | nil =>
    simp only [Obeys, List.take_nil, execute]
    exact ⟨fun _ _ => shows s start, fun _ => trivial⟩
  | cons x xs inductionHypothesis =>
    obtain ⟨allowed, obeys⟩ := obeys
    rw [Obeys]
    constructor
    · rintro ⟨here, rest⟩ n
      have kept := keeps x s start allowed here
      cases n with
      | zero => exact shows s start
      | succ n =>
        rw [List.take_succ_cons, execute]
        cases result : step x s with
        | ok t =>
          rw [result] at kept rest obeys
          exact (inductionHypothesis kept obeys).mp rest n
        | error fault =>
          rw [result] at kept
          exact kept
    · intro throughout
      have first := throughout 1
      have later := fun n => throughout (n + 1)
      simp only [List.take_succ_cons, List.take_zero, execute] at first later
      have shown : Ends good bad (step x s) := by
        cases result : step x s with
        | ok t => simpa only [result] using first
        | error fault => simpa only [result] using first
      have here := exposes x s start allowed shown
      have kept := keeps x s start allowed here
      refine ⟨here, ?_⟩
      cases result : step x s with
      | ok t =>
        rw [result] at kept obeys
        simp only [result] at later
        exact (inductionHypothesis kept obeys).mpr later
      | error fault => trivial

/-- A run is guarded exactly when all that its states show is good, provided a
guarded step keeps the invariant, and a step that breaks the guard shows at once. -/
theorem obeys_iff_shown {I : σ → Prop} (shows : ∀ s, I s → good s)
    (keeps : ∀ x s, I s → guard x s → Ends I bad (step x s))
    (exposes : ∀ x s, I s → Ends good bad (step x s) → guard x s) (start : I s) :
    Obeys step guard xs s ↔ ∀ n, Ends good bad (execute step (xs.take n) s) :=
  obeys_iff_given shows (fun x s holds _ => keeps x s holds) (fun x s holds _ => exposes x s holds) start
    (Obeys.always step xs s)

/-- Among the runs that obey a first guard, guards that agree wherever their steps lead
admit the same ones. -/
theorem obeys_agree_given {I : σ → Prop} {given : ι → σ → Prop}
    (keeps : ∀ x s t, I s → given x s → guard x s → step x s = .ok t → I t)
    (agree : ∀ x s, I s → given x s → (guard x s ↔ strict x s)) (start : I s)
    (obeys : Obeys step given xs s) : Obeys step guard xs s ↔ Obeys step strict xs s := by
  induction xs generalizing s with
  | nil => exact Iff.rfl
  | cons x xs inductionHypothesis =>
    obtain ⟨allowed, obeys⟩ := obeys
    rw [Obeys, Obeys, ← agree x s start allowed]
    refine and_congr_right fun here => ?_
    cases result : step x s with
    | ok t =>
      rw [result] at obeys
      exact inductionHypothesis (keeps x s t start allowed here result) obeys
    | error fault => exact Iff.rfl

/-- Guards that agree wherever the guarded steps lead admit the same runs. -/
theorem obeys_agree {I : σ → Prop} (keeps : ∀ x s t, I s → guard x s → step x s = .ok t → I t)
    (agree : ∀ x s, I s → (guard x s ↔ strict x s)) (start : I s) :
    Obeys step guard xs s ↔ Obeys step strict xs s :=
  obeys_agree_given (fun x s t holds _ => keeps x s t holds) (fun x s holds _ => agree x s holds) start
    (Obeys.always step xs s)

/-- Guards that agree wherever an invariant of the steps holds admit the same runs. -/
theorem obeys_congr {I : σ → Prop} (keeps : ∀ x s t, I s → step x s = .ok t → I t)
    (agree : ∀ x s, I s → (guard x s ↔ strict x s)) (start : I s) :
    Obeys step guard xs s ↔ Obeys step strict xs s :=
  obeys_agree (fun x s t holds _ => keeps x s t holds) agree start

/-- What every guarded step keeps of a state and the inputs so far, every guarded
run keeps. -/
theorem execute_remembers {I : List ι → σ → Prop} {past : List ι}
    (keeps : ∀ past x s, I past s → guard x s → Ends (I (past ++ [x])) bad (step x s)) (start : I past s)
    (obeys : Obeys step guard xs s) : Ends (I (past ++ xs)) bad (execute step xs s) := by
  induction xs generalizing s past with
  | nil => simpa [execute, Ends] using start
  | cons x xs inductionHypothesis =>
    obtain ⟨allowed, rest⟩ := obeys
    have first := keeps past x s start allowed
    unfold execute
    cases result : step x s with
    | ok t =>
      rw [result] at first rest
      have whole := inductionHypothesis first rest
      rwa [List.append_assoc, List.singleton_append] at whole
    | error fault =>
      rw [result] at first
      exact first

/-- A weaker condition on the states. -/
theorem Ends.mono {other : σ → Prop} {result : Except ε σ} (ends : Ends good bad result)
    (weaker : ∀ t, good t → other t) : Ends other bad result := by
  cases result with
  | ok t => exact weaker t ends
  | error fault => exact ends

/-- Two conditions on where an execution ends. -/
theorem Ends.and {other : σ → Prop} {result : Except ε σ} (first : Ends good bad result)
    (second : Ends other bad result) : Ends (fun t => good t ∧ other t) bad result := by
  cases result with
  | ok t => exact ⟨first, second⟩
  | error fault => exact first

/-- Every state of a run is good exactly when the run is guarded, provided a step
from a good state leaves a good state exactly when it is guarded. -/
theorem obeys_iff {I : σ → Prop} (keeps : ∀ x s, I s → Ends I bad (step x s))
    (exactly : ∀ x s, I s → good s → (guard x s ↔ Ends good bad (step x s)))
    (start : I s) (first : good s) :
    Obeys step guard xs s ↔ ∀ n, Ends good bad (execute step (xs.take n) s) := by
  apply obeys_iff_shown (I := fun s => I s ∧ good s)
  · exact fun s holds => holds.2
  · exact fun x s holds here => (keeps x s holds.1).and ((exactly x s holds.1 holds.2).mp here)
  · exact fun x s holds shown => (exactly x s holds.1 holds.2).mpr shown
  · exact ⟨start, first⟩

/-- A computable test that the good states pass and the last state of an
execution fails. -/
theorem not_ends {result : Except ε σ} (test : σ → Bool) (passes : ∀ t, good t → test t = true)
    (fails : result.toOption.map test = some false) : ¬Ends good bad result := by
  intro ends
  cases result with
  | ok t =>
    have passed := passes t ends
    simp [Except.toOption, passed] at fails
  | error fault => simp [Except.toOption] at fails

/-- The error that ended an execution. -/
def fault (result : Except ε σ) : Option ε :=
  match result with
  | .ok _ => none
  | .error fault => some fault

/-- An execution that ends with an error of no allowed kind. -/
theorem not_ends_fault {result : Except ε σ} {e : ε} (ended : fault result = some e) (refused : ¬bad e) :
    ¬Ends good bad result := by
  intro ends
  cases result with
  | ok t => exact absurd ended nofun
  | error e' =>
    obtain rfl : e' = e := Option.some.inj ended
    exact refused ends

/-- Where every guarded step lowers a measure, a guarded run is no longer than what it
lowers the measure by. -/
theorem execute_bounded {I : σ → Prop} (measure : σ → Nat)
    (lowers : ∀ x s t, I s → guard x s → step x s = .ok t → I t ∧ measure t < measure s) (start : I s)
    (obeys : Obeys step guard xs s) (reached : execute step xs s = .ok t) :
    I t ∧ xs.length + measure t ≤ measure s := by
  induction xs generalizing s with
  | nil =>
    obtain rfl : s = t := Except.ok.inj reached
    exact ⟨start, by simp⟩
  | cons x xs inductionHypothesis =>
    obtain ⟨allowed, rest⟩ := obeys
    unfold execute at reached
    cases result : step x s with
    | ok u =>
      rw [result] at reached rest
      obtain ⟨holds, lower⟩ := lowers x s u start allowed result
      obtain ⟨last, bound⟩ := inductionHypothesis holds rest reached
      refine ⟨last, ?_⟩
      rw [List.length_cons]
      omega
    | error fault =>
      rw [result] at reached
      exact absurd reached nofun

/-- Where every guarded step lowers a measure, some guarded run reaches a state in which
no guarded step is possible. -/
theorem execute_settles {I : σ → Prop} (measure : σ → Nat)
    (lowers : ∀ x s t, I s → guard x s → step x s = .ok t → I t ∧ measure t < measure s) (start : I s) :
    ∃ xs t, Obeys step guard xs s ∧ execute step xs s = .ok t ∧ I t ∧
      ∀ x u, guard x t → step x t ≠ .ok u := by
  induction size : measure s using Nat.strongRecOn generalizing s with
  | ind size inductionHypothesis =>
    by_cases ends : ∀ x u, guard x s → step x s ≠ .ok u
    · exact ⟨[], s, trivial, rfl, start, ends⟩
    · push Not at ends
      obtain ⟨x, u, allowed, result⟩ := ends
      obtain ⟨holds, lower⟩ := lowers x s u start allowed result
      obtain ⟨xs, t, obeys, reached, last, settled⟩ := inductionHypothesis (measure u) (by omega) holds rfl
      refine ⟨x :: xs, t, ⟨allowed, ?_⟩, ?_, last, settled⟩
      · rw [result]
        exact obeys
      · rw [execute, result]
        exact reached

/-- A guard that every input satisfies in any state admits the run. -/
theorem Obeys.of_forall (all : ∀ x ∈ xs, ∀ s, guard x s) : Obeys step guard xs s := by
  induction xs generalizing s with
  | nil => trivial
  | cons x xs inductionHypothesis =>
    refine ⟨all x List.mem_cons_self s, ?_⟩
    cases step x s with
    | ok t => exact inductionHypothesis fun y member => all y (List.mem_cons_of_mem x member)
    | error fault => trivial

/-- Where every guarded step is one of another machine on the same states, every guarded
run is a run of that machine, input by input. -/
theorem execute_matches {κ : Type u} {other : κ → σ → Except ε σ} {R : ι → κ → Prop} {permits : κ → σ → Prop}
    (simulates : ∀ x s t, guard x s → step x s = .ok t → ∃ y, R x y ∧ permits y s ∧ other y s = .ok t)
    (obeys : Obeys step guard xs s) (reached : execute step xs s = .ok t) :
    ∃ ys, List.Forall₂ R xs ys ∧ Obeys other permits ys s ∧ execute other ys s = .ok t := by
  induction xs generalizing s with
  | nil => exact ⟨[], .nil, trivial, reached⟩
  | cons x xs inductionHypothesis =>
    obtain ⟨allowed, rest⟩ := obeys
    unfold execute at reached
    cases result : step x s with
    | ok u =>
      rw [result] at reached rest
      obtain ⟨y, related, permitted, same⟩ := simulates x s u allowed result
      obtain ⟨ys, matched, others, run⟩ := inductionHypothesis rest reached
      refine ⟨y :: ys, .cons related matched, ⟨permitted, ?_⟩, ?_⟩
      · rw [same]
        exact others
      · rw [execute, same]
        exact run
    | error fault =>
      rw [result] at reached
      exact absurd reached (by simp)

/-- In the same way a run that ends with one of some errors is one of that machine up to
where it ends, if that machine fails with these too. -/
theorem execute_stops {κ : Type u} {other : κ → σ → Except ε σ} {R : ι → κ → Prop} {fault : ε}
    (simulates : ∀ x s t, step x s = .ok t → ∃ y, R x y ∧ other y s = .ok t)
    (stops : ∀ x s, step x s = .error fault → ∃ y, R x y ∧ other y s = .error fault)
    (failed : execute step xs s = .error fault) :
    ∃ n ys, List.Forall₂ R (xs.take n) ys ∧ execute other ys s = .error fault := by
  induction xs generalizing s with
  | nil => exact absurd failed (by simp [execute])
  | cons x xs inductionHypothesis =>
    unfold execute at failed
    cases result : step x s with
    | ok u =>
      rw [result] at failed
      obtain ⟨y, related, same⟩ := simulates x s u result
      obtain ⟨n, ys, matched, run⟩ := inductionHypothesis failed
      refine ⟨n + 1, y :: ys, .cons related matched, ?_⟩
      rw [execute, same]
      exact run
    | error first =>
      rw [result] at failed
      obtain rfl : first = fault := Except.error.inj failed
      obtain ⟨y, related, same⟩ := stops x s result
      refine ⟨1, [y], .cons related .nil, ?_⟩
      rw [execute, same]

/-- What the steps of a run show, in order; a step that fails shows nothing. -/
def trace {α : Type u} (step : ι → σ → Except ε σ) (shows : ι → σ → α) : List ι → σ → List α
  | [], _ => []
  | x :: xs, s =>
    match step x s with
    | .ok t => shows x s :: trace step shows xs t
    | .error _ => []

/-- A specification allows these observations between two of its states. -/
def Follows {α η : Type u} (spec : α → η → η → Prop) : List α → η → η → Prop
  | [], h, k => h = k
  | a :: as, h, k => ∃ m, spec a h m ∧ Follows spec as m k

/-- Where every guarded step shows what the specification allows, every guarded run
does, also one that ends with an error. -/
theorem execute_follows {α η : Type u} {S : α → η → η → Prop} {f : ι → σ → α} {R : η → σ → Prop} {h : η}
    (simulates : ∀ x s t h, R h s → guard x s → step x s = .ok t → ∃ k, S (f x s) h k ∧ R k t)
    (start : R h s) (obeys : Obeys step guard xs s) :
    ∃ k, Follows S (trace step f xs s) h k ∧ Ends (R k) (fun _ => True) (execute step xs s) := by
  induction xs generalizing h s with
  | nil => exact ⟨h, rfl, start⟩
  | cons x xs inductionHypothesis =>
    obtain ⟨allowed, rest⟩ := obeys
    unfold trace execute
    cases result : step x s with
    | ok t =>
      rw [result] at rest
      obtain ⟨m, shown, related⟩ := simulates x s t h start allowed result
      obtain ⟨k, follows, ends⟩ := inductionHypothesis related rest
      exact ⟨k, ⟨m, shown, follows⟩, ends⟩
    | error fault => exact ⟨h, rfl, trivial⟩

end OperatingSystems.Runs
