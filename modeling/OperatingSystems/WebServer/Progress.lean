import OperatingSystems.WebServer.Schedules

/-!
# How far the threads get by themselves

The threads make their own steps; connections that come in and spurious wake-ups
are not among these. Each of their own steps brings a connection closer to its
end, or puts a thread to sleep that finds nothing to do. So they cannot go on
forever, and where none of them can go on every connection was closed but those
that workers still handle.

A section that needs a node can be entered when `malloc` has an unused address to
give, and a queue uses finitely many.
-/

namespace OperatingSystems.WebServer

open Runs

/-- A step that a thread makes by itself. -/
def Action.isOwn : Action → Bool
  | .accept _ _ | .wakeWorker _ | .wakeMaster => false
  | .serve _ | .take _ _ _ | .finish _ | .retire _ => true

/-- A worker between its sections still has to close the connection, and to retire it. -/
def Worker.stage (worker : Worker) : Nat :=
  match worker.place with
  | .handling _ => 2
  | .retiring _ => 1
  | _ => 0

/-- The sections and closings that the accepted connections still need. -/
def Server.toDo (s : Server) : Nat :=
  4 * s.master.holds.length + 3 * (contents s.waiting).length + (s.workers.map Worker.stage).sum

/-- The threads on their way to a section in which they may find nothing to do. -/
def Server.awake (s : Server) : Nat :=
  s.workers.countP Worker.ready + if s.master.entering.isSome then 1 else 0

/-- How many steps the threads can make by themselves: each section may wake all of them. -/
def Server.patience (s : Server) : Nat := s.toDo * (s.workers.length + 2) + s.awake

/-- The queue has nodes at finitely many addresses. -/
def Queue.Bounded (q : Queue) : Prop := {a | q.nodes a ≠ none}.Finite

/-- No thread can enter a section. A worker that handles a connection may come to its end
with it, or not. -/
def Resting (config : Config) (s : Server) : Prop :=
  ∀ action t, action.isOwn = true → (∀ i, action ≠ .finish i) → step config action s ≠ .ok t

variable {config : Config} {s t : Server} {held waiting handled : List Conn} {q rest : Queue}
  {before after front back : List Worker} {worker : Worker} {choice : Choice}

section Addresses

/-- A section uses no address but the one that `malloc` gave it, and keeps the threads. -/
structure Spares (fresh : Nat) (s t : Server) : Prop where
  waiting : ∀ a ≠ fresh, s.waiting.nodes a = none → t.waiting.nodes a = none
  running : ∀ a ≠ fresh, s.running.nodes a = none → t.running.nodes a = none
  workers : t.workers.length = s.workers.length

theorem bind_ok {ε α β : Type} {x : Except ε α} {f : α → Except ε β} {b : β} (run : x >>= f = .ok b) :
    ∃ a, x = .ok a ∧ f a = .ok b := by
  cases x with
  | ok a => exact ⟨a, rfl, run⟩
  | error e => exact absurd run nofun

theorem orCrash_ok {α : Type} {x : Option α} {a : α} (run : orCrash x = .ok a) : x = some a := by
  cases x with
  | none => exact absurd run nofun
  | some b => exact congrArg some (Except.ok.inj run)

theorem queuePop_unused {at_ arrival : Timeval} {data : Int} (pops : queuePop q at_ = some (data, arrival, rest))
    {a : Nat} (unused : q.nodes a = none) : rest.nodes a = none := by
  unfold queuePop at pops
  split at pops
  · simp only [Option.some.injEq, Prod.mk.injEq] at pops
    rw [← pops.2.2]
    exact unused
  · obtain ⟨first, -, pops⟩ := Option.bind_eq_some_iff.mp pops
    simp only [Option.some.injEq, Prod.mk.injEq] at pops
    rw [← pops.2.2]
    simp only [update]
    split
    · rfl
    · exact unused

theorem queuePush_unused {data result : Int} {arrival : Timeval} {address : Nat}
    (pushes : queuePush q data arrival address = some (result, rest)) {a : Nat} (apart : a ≠ address)
    (unused : q.nodes a = none) : rest.nodes a = none := by
  unfold queuePush at pushes
  split at pushes
  · simp only [Option.some.injEq, Prod.mk.injEq] at pushes
    rw [← pushes.2]
    exact unused
  · simp only at pushes
    split at pushes
    · simp only [Option.some.injEq, Prod.mk.injEq] at pushes
      rw [← pushes.2]
      exact (update_other apart).trans unused
    · obtain ⟨last, found, pushes⟩ := Option.bind_eq_some_iff.mp pushes
      simp only [Option.some.injEq, Prod.mk.injEq] at pushes
      have still : update q.nodes address (some ⟨data, arrival, 0⟩) a = none :=
        (update_other apart).trans unused
      have other : a ≠ q.tail := by
        rintro rfl
        exact absurd (found.symm.trans still) (by simp)
      rw [← pushes.2]
      exact (update_other other).trans still

theorem queueRemoveByIndex_unused {index data : Int}
    (removes : queueRemoveByIndex q index = some (data, rest)) {a : Nat} (unused : q.nodes a = none) :
    rest.nodes a = none := by
  unfold queueRemoveByIndex at removes
  split at removes
  · simp only [Option.some.injEq, Prod.mk.injEq] at removes
    rw [← removes.2]
    exact unused
  split at removes
  · obtain ⟨⟨data, arrival, shorter⟩, pops, removes⟩ := Option.bind_eq_some_iff.mp removes
    simp only [Option.some.injEq, Prod.mk.injEq] at removes
    rw [← removes.2]
    exact queuePop_unused pops unused
  split at removes
  · exact absurd removes (by simp)
  · obtain ⟨it, -, removes⟩ := Option.bind_eq_some_iff.mp removes
    obtain ⟨node, found, removes⟩ := Option.bind_eq_some_iff.mp removes
    obtain ⟨removed, -, removes⟩ := Option.bind_eq_some_iff.mp removes
    simp only [Option.some.injEq, Prod.mk.injEq] at removes
    have other : a ≠ it := by
      rintro rfl
      exact absurd (found.symm.trans unused) (by simp)
    rw [← removes.2]
    simp only [update, if_neg other, unused, ite_self]

theorem discardLoop_unused {rand : Nat → Nat} {num : Nat} {closed : List Int}
    (discards : discardLoop rand num q = some (closed, rest)) {a : Nat} (unused : q.nodes a = none) :
    rest.nodes a = none := by
  induction num generalizing q closed with
  | zero =>
    simp only [discardLoop, Option.some.injEq, Prod.mk.injEq] at discards
    rw [← discards.2]
    exact unused
  | succ num inductionHypothesis =>
    obtain ⟨⟨data, shorter⟩, removes, discards⟩ := Option.bind_eq_some_iff.mp discards
    obtain ⟨⟨more, last⟩, loop, discards⟩ := Option.bind_eq_some_iff.mp discards
    simp only [Option.some.injEq, Prod.mk.injEq] at discards
    obtain ⟨-, rfl⟩ := discards
    exact inductionHypothesis loop (queueRemoveByIndex_unused removes unused)

theorem enqueue_spares {connfd : Int} {arrival : Timeval} (run : enqueue choice connfd arrival s = .ok t) :
    Spares choice.address s t := by
  unfold enqueue at run
  split at run
  · obtain ⟨⟨result, longer⟩, pushes, run⟩ := bind_ok run
    obtain rfl := Except.ok.inj run
    exact ⟨fun a apart => queuePush_unused (orCrash_ok pushes) apart, fun _ _ unused => unused, by simp [signal]⟩
  · exact absurd run (by simp)

theorem refuse_spares {fd : Int} (run : refuse fd s = .ok t) :
    t.waiting = s.waiting ∧ t.running = s.running ∧ t.workers = s.workers := by
  obtain ⟨kernel, -, run⟩ := bind_ok run
  obtain rfl := Except.ok.inj run
  exact ⟨rfl, rfl, rfl⟩

theorem discard_spares (run : discard config choice s = .ok t) :
    (∀ a, s.waiting.nodes a = none → t.waiting.nodes a = none) ∧ t.running = s.running ∧
      t.workers = s.workers := by
  obtain ⟨⟨closed, thinner⟩, discards, run⟩ := bind_ok run
  obtain ⟨kernel, -, run⟩ := bind_ok run
  obtain rfl := Except.ok.inj run
  exact ⟨fun a => discardLoop_unused (orCrash_ok discards), rfl, rfl⟩

/-- The section of the master takes the address that it was given. -/
theorem overload_spares {connfd : Int} {arrival : Timeval}
    (run : overload config choice connfd arrival s = .ok t) : Spares choice.address s t := by
  unfold overload at run
  have refused : ∀ {fd : Int} {u : Server}, refuse fd u = .ok t → (∀ a, s.waiting.nodes a = none →
      u.waiting.nodes a = none) → u.running = s.running → u.workers = s.workers → Spares choice.address s t := by
    intro fd u run unused same threads
    obtain ⟨waiting, running, workers⟩ := refuse_spares run
    exact ⟨fun a _ free => waiting ▸ unused a free, fun a _ free => by rw [running, same]; exact free,
      by rw [workers, threads]⟩
  have queued : ∀ {u : Server}, enqueue choice connfd arrival u = .ok t → (∀ a, s.waiting.nodes a = none →
      u.waiting.nodes a = none) → u.running = s.running → u.workers = s.workers → Spares choice.address s t := by
    intro u run unused same threads
    have spares := enqueue_spares run
    exact ⟨fun a apart free => spares.waiting a apart (unused a free),
      fun a apart free => spares.running a apart (by rw [same]; exact free), by rw [spares.workers, threads]⟩
  cases policy : config.schedalg with
  | block =>
    simp only [policy] at run
    split at run
    · obtain rfl := Except.ok.inj run
      exact ⟨fun _ _ free => free, fun _ _ free => free, rfl⟩
    · exact queued run (fun _ free => free) rfl rfl
  | dropTail =>
    simp only [policy] at run
    split at run
    · exact refused run (fun _ free => free) rfl rfl
    · exact queued run (fun _ free => free) rfl rfl
  | dropRand =>
    simp only [policy] at run
    split at run
    · obtain ⟨u, thinned, run⟩ := bind_ok run
      obtain ⟨unused, same, threads⟩ := discard_spares thinned
      split at run
      · exact queued run unused same threads
      · exact refused run unused same threads
    · simp only [bind, Except.bind] at run
      split at run
      · exact queued run (fun _ free => free) rfl rfl
      · exact refused run (fun _ free => free) rfl rfl
  | dropHead =>
    simp only [policy] at run
    split at run
    · obtain ⟨⟨head, arrived, shorter⟩, pops, run⟩ := bind_ok run
      have unused : ∀ a, s.waiting.nodes a = none → shorter.nodes a = none := fun a =>
        queuePop_unused (orCrash_ok pops)
      simp only at run
      split at run
      · obtain ⟨u, closes, run⟩ := bind_ok run
        obtain ⟨waiting, running, workers⟩ := refuse_spares closes
        exact queued run (fun a free => waiting ▸ unused a free) running workers
      · exact refused run unused rfl rfl
    · exact queued run (fun _ free => free) rfl rfl

/-- Every step takes at most one address. -/
theorem step_spares {action : Action} (run : step config action s = .ok t) : ∃ fresh, Spares fresh s t := by
  cases action with
  | accept connfd arrival =>
    simp only [step] at run
    split at run
    · obtain rfl := Except.ok.inj run
      exact ⟨0, fun _ _ free => free, fun _ _ free => free, rfl⟩
    · exact absurd run (by simp)
  | serve choice =>
    simp only [step] at run
    split at run
    · exact ⟨choice.address, overload_spares run⟩
    · exact absurd run (by simp)
  | take i address temp =>
    have takes : ∀ {worker : Worker}, take i address temp worker s = .ok t → Spares address s t := by
      intro worker run
      unfold take at run
      split at run
      · obtain rfl := Except.ok.inj run
        exact ⟨fun _ _ free => free, fun _ _ free => free, by simp⟩
      split at run
      · obtain ⟨⟨fd, arrival, shorter⟩, pops, run⟩ := bind_ok run
        obtain ⟨⟨result, longer⟩, pushes, run⟩ := bind_ok run
        obtain rfl := Except.ok.inj run
        exact ⟨fun a _ => queuePop_unused (orCrash_ok pops), fun a apart =>
          queuePush_unused (orCrash_ok pushes) apart, by simp [broadcast]⟩
      · exact absurd run (by simp)
    simp only [step] at run
    split at run
    · exact ⟨address, takes run⟩
    · exact ⟨address, takes run⟩
    · exact absurd run (by simp)
  | finish i =>
    simp only [step] at run
    split at run
    · obtain ⟨kernel, -, run⟩ := bind_ok run
      obtain rfl := Except.ok.inj run
      exact ⟨0, fun _ _ free => free, fun _ _ free => free, by simp⟩
    · exact absurd run (by simp)
  | retire i =>
    simp only [step] at run
    split at run
    · obtain ⟨⟨fd, arrival, shorter⟩, pops, run⟩ := bind_ok run
      obtain rfl := Except.ok.inj run
      exact ⟨0, fun _ _ free => free, fun a _ => queuePop_unused (orCrash_ok pops), by simp [broadcast]⟩
    · exact absurd run (by simp)
  | wakeWorker i =>
    simp only [step] at run
    split at run
    · obtain rfl := Except.ok.inj run
      exact ⟨0, fun _ _ free => free, fun _ _ free => free, by simp⟩
    · exact absurd run (by simp)
  | wakeMaster =>
    obtain rfl := Except.ok.inj run
    exact ⟨0, fun _ _ free => free, fun _ _ free => free, rfl⟩

/-- A queue that used no address but one more has finitely many nodes still. -/
theorem Queue.Bounded.spares {fresh : Nat} (bounded : q.Bounded)
    (spares : ∀ a ≠ fresh, q.nodes a = none → rest.nodes a = none) : rest.Bounded := by
  refine (bounded.insert fresh).subset fun a used => ?_
  by_cases same : a = fresh
  · exact Or.inl same
  · exact Or.inr fun unused => used (spares a same unused)

/-- There is an address that `malloc` can give. -/
theorem Queue.Bounded.fresh (bounded : q.Bounded) : ∃ a, a ≠ 0 ∧ q.nodes a = none := by
  obtain ⟨a, unused⟩ := (bounded.insert 0).exists_notMem
  simp only [Set.mem_insert_iff, Set.mem_ofPred_eq, not_or, not_not] at unused
  exact ⟨a, unused⟩

end Addresses

section Patience

@[simp] theorem stage_locking {arrival : Timeval} : Worker.stage ⟨.locking, arrival⟩ = 0 := rfl

@[simp] theorem stage_asleep {arrival : Timeval} : Worker.stage ⟨.asleep, arrival⟩ = 0 := rfl

@[simp] theorem stage_handling {fd : Int} {arrival : Timeval} : Worker.stage ⟨.handling fd, arrival⟩ = 2 := rfl

@[simp] theorem stage_retiring {fd : Int} {arrival : Timeval} : Worker.stage ⟨.retiring fd, arrival⟩ = 1 := rfl

theorem Wakes.stages (wakes : Wakes before after) :
    (after.map Worker.stage).sum = (before.map Worker.stage).sum := by
  induction wakes with
  | nil => rfl
  | @cons w _ _ _ head _ inductionHypothesis =>
    have same : w.wake.stage = w.stage := by
      rcases w with ⟨place, arrival⟩
      cases place <;> rfl
    rcases head with rfl | rfl <;> simp [inductionHypothesis, same]

theorem awake_le (s : Server) : s.awake ≤ s.workers.length + 1 := by
  have most : s.workers.countP Worker.ready ≤ s.workers.length := List.countP_le_length
  unfold Server.awake
  split <;> omega

/-- A step that brings a connection closer to its end may wake every thread. -/
theorem patience_lt (same : t.workers.length = s.workers.length) (less : t.toDo < s.toDo) :
    t.patience < s.patience := by
  have most := awake_le t
  calc t.patience < (t.toDo + 1) * (t.workers.length + 2) := by
        unfold Server.patience
        rw [Nat.add_mul]
        omega
    _ ≤ s.toDo * (s.workers.length + 2) := by
        rw [same]
        exact Nat.mul_le_mul_right _ less
    _ ≤ s.patience := Nat.le_add_right _ _

/-- A step by which a thread goes to sleep. -/
theorem patience_sleep (same : t.workers.length = s.workers.length) (still : t.toDo = s.toDo)
    (less : t.awake < s.awake) : t.patience < s.patience := by
  unfold Server.patience
  rw [same, still]
  omega

namespace Sound

theorem waits_length (sound : Sound config s held waiting handled) :
    (contents s.waiting).length = waiting.length := by
  rw [sound.queue.contents, List.length_map]

/-- The section of the master. -/
theorem serve_patience (sound : Sound config s held waiting handled)
    (run : WebServer.step config (.serve choice) s = .ok t) : t.patience < s.patience := by
  simp only [WebServer.step] at run
  cases enters : s.master.entering with
  | none =>
    rw [enters] at run
    exact absurd run (by simp)
  | some entry =>
    obtain ⟨c, rfl, rfl⟩ := sound.entering enters
    have holds : s.master.holds.length = 1 := by rw [sound.master]; rfl
    have owns : s.kernel.Owns (c :: waiting ++ handled) := sound.owns
    simp only [enters, Conn.entry] at run
    rcases overload_outcome config choice owns sound.queue with disabled | ⟨-, -, sleeps⟩ |
      ⟨removed, kept, admitted, u, decides, decided⟩
    · exact absurd (disabled.symm.trans run) (by simp)
    · obtain rfl := Except.ok.inj (sleeps.symm.trans run)
      have slept : (Master.asleep c.fd c.arrival).entering = none := rfl
      refine patience_sleep rfl ?_ ?_
      · simp only [Server.toDo, holds]
        rfl
      · simp [Server.awake, enters, slept]
    · obtain rfl := Except.ok.inj (decides.symm.trans run)
      refine patience_lt decided.workers.length_eq.symm ?_
      have fewer := decided.ordered.length_le
      have after := congrArg List.length decided.queue.contents
      rw [List.length_map, List.length_append] at after
      unfold Server.toDo
      rw [decided.workers.stages, after, sound.waits_length, holds, decided.master, Master.holds]
      cases admitted <;> simp <;> omega

/-- The first section of a worker. -/
theorem take_patience (sound : Sound config s held waiting handled) {i address : Nat} {temp : Timeval}
    (found : s.workers[i]? = some worker) (ready : worker.ready = true)
    (run : WebServer.take i address temp worker s = .ok t) : t.patience < s.patience := by
  obtain ⟨front, back, here, split⟩ := split_at found
  have idle : worker.stage = 0 := by
    rcases worker with ⟨place, arrival⟩
    cases place <;> first | rfl | exact absurd ready Bool.false_ne_true
  have length : ∀ other, (front ++ other :: back).length = s.workers.length := fun other => by simp [here]
  rcases sound.take_outcome split address temp worker with disabled | ⟨rfl, sleeps⟩ |
    ⟨c, more, shorter, running, entries, rfl, popped, -, -, -, takes⟩
  · exact absurd (disabled.symm.trans run) (by simp)
  · obtain rfl := Except.ok.inj (sleeps.symm.trans run)
    have slept : (⟨.asleep, worker.arrival⟩ : Worker).ready = false := rfl
    refine patience_sleep (length _) ?_ ?_
    · simp [Server.toDo, here, idle]
    · simp [Server.awake, here, ready, slept]
  · have result := Except.ok.inj (takes.symm.trans run)
    have wakes := wakes_broadcast { s with
      waiting := shorter
      running := running
      workers := front ++ ⟨.handling c.fd, c.arrival⟩ :: back
      dispatched := s.dispatched ++ [(c.id, c.arrival)] }
    rw [result] at wakes
    refine patience_lt (wakes.length_eq.symm.trans (length _)) ?_
    have kept : t.master.holds = s.master.holds := result ▸ broadcast_holds _
    have after : (contents t.waiting).length = more.length := by
      rw [← result]
      simp [broadcast, popped.contents]
    have before : (contents s.waiting).length = more.length + 1 := sound.waits_length
    unfold Server.toDo
    rw [wakes.stages, kept, after, before, here]
    simp [idle]
    omega

/-- A worker closes its connection. -/
theorem finish_patience {i : Nat} {fd : Int} {arrival : Timeval}
    (found : s.workers[i]? = some ⟨.handling fd, arrival⟩) (run : WebServer.finish i fd arrival s = .ok t) :
    t.patience < s.patience := by
  obtain ⟨front, back, here, split⟩ := split_at found
  obtain ⟨kernel, -, run⟩ := bind_ok run
  obtain rfl := Except.ok.inj run
  refine patience_lt (by simp) ?_
  simp only [Server.toDo, split]
  rw [here]
  simp

/-- The second section of a worker. -/
theorem retire_patience (sound : Sound config s held waiting handled) {i : Nat} {fd : Int} {arrival : Timeval}
    (found : s.workers[i]? = some ⟨.retiring fd, arrival⟩) (run : WebServer.retire i arrival s = .ok t) :
    t.patience < s.patience := by
  obtain ⟨front, back, here, split⟩ := split_at found
  obtain ⟨running, entry, entries, -, -, -, retires⟩ := sound.retire_outcome here split
  have result := Except.ok.inj (retires.symm.trans run)
  have wakes := wakes_broadcast { s with
    running := running
    workers := front ++ ⟨.locking, arrival⟩ :: back }
  rw [result] at wakes
  refine patience_lt (wakes.length_eq.symm.trans (by simp [here])) ?_
  have kept : t.master.holds = s.master.holds := result ▸ broadcast_holds _
  have same : t.waiting = s.waiting := by
    rw [← result]
    rfl
  unfold Server.toDo
  rw [wakes.stages, kept, same, here]
  simp

/-- Every step of a thread by itself takes some of the patience. -/
theorem own_patience (sound : Sound config s held waiting handled) {action : Action}
    (own : action.isOwn = true) (run : WebServer.step config action s = .ok t) : t.patience < s.patience := by
  cases action with
  | accept connfd arrival => exact absurd own Bool.false_ne_true
  | serve choice => exact sound.serve_patience run
  | take i address temp =>
    simp only [WebServer.step] at run
    split at run
    · next found => exact sound.take_patience found rfl run
    · next found => exact sound.take_patience found rfl run
    · exact absurd run (by simp)
  | finish i =>
    simp only [WebServer.step] at run
    split at run
    · next found => exact finish_patience found run
    · exact absurd run (by simp)
  | retire i =>
    simp only [WebServer.step] at run
    split at run
    · next found => exact sound.retire_patience found run
    · exact absurd run (by simp)
  | wakeWorker i => exact absurd own Bool.false_ne_true
  | wakeMaster => exact absurd own Bool.false_ne_true

end Sound

end Patience

section Settling

theorem bind_error {ε α β : Type} {x : Except ε α} {f : α → Except ε β} {e : ε} (run : x >>= f = .error e) :
    x = .error e ∨ ∃ a, x = .ok a ∧ f a = .error e := by
  cases x with
  | ok a => exact Or.inr ⟨a, rfl, run⟩
  | error fault =>
    cases run
    exact Or.inl rfl

theorem orCrash_able {α : Type} (x : Option α) : orCrash x ≠ .error .disabled := by
  cases x <;> exact nofun

theorem refuse_able (fd : Int) (s : Server) : refuse fd s ≠ .error .disabled := by
  intro run
  rcases bind_error run with crash | ⟨kernel, -, run⟩
  · exact orCrash_able _ crash
  · exact absurd run (by simp)

/-- With an unused address, and a signal that wakes all, the master can queue its connection. -/
theorem enqueue_able {connfd : Int} {arrival : Timeval} (all : ∀ i, choice.wakes i = true)
    (proper : choice.address ≠ 0) (unused : s.waiting.nodes choice.address = none) :
    enqueue choice connfd arrival s ≠ .error .disabled := by
  intro run
  have signals : Signals choice.wakes s := fun ⟨i, inside, asleep⟩ => ⟨i, inside, asleep, all i⟩
  unfold enqueue at run
  rw [if_pos ⟨proper, unused, signals⟩] at run
  rcases bind_error run with crash | ⟨_, -, run⟩
  · exact orCrash_able _ crash
  · exact absurd run (by simp)

/-- Then its section is possible. -/
theorem overload_able {connfd : Int} {arrival : Timeval} (all : ∀ i, choice.wakes i = true)
    (proper : choice.address ≠ 0) (unused : s.waiting.nodes choice.address = none) :
    overload config choice connfd arrival s ≠ .error .disabled := by
  intro run
  unfold overload at run
  cases policy : config.schedalg with
  | block =>
    simp only [policy] at run
    split at run
    · exact absurd run (by simp)
    · exact absurd run (enqueue_able all proper unused)
  | dropTail =>
    simp only [policy] at run
    split at run
    · exact refuse_able _ _ run
    · exact absurd run (enqueue_able all proper unused)
  | dropRand =>
    simp only [policy] at run
    split at run
    · rcases bind_error run with discards | ⟨u, thinned, run⟩
      · rcases bind_error discards with crash | ⟨_, -, discards⟩
        · exact orCrash_able _ crash
        rcases bind_error discards with crash | ⟨_, -, discards⟩
        · exact orCrash_able _ crash
        · exact absurd discards (by simp)
      split at run
      · exact absurd run (enqueue_able all proper ((discard_spares thinned).1 _ unused))
      · exact refuse_able _ _ run
    · simp only [bind, Except.bind] at run
      split at run
      · exact absurd run (enqueue_able all proper unused)
      · exact refuse_able _ _ run
  | dropHead =>
    simp only [policy] at run
    split at run
    · rcases bind_error run with crash | ⟨⟨head, arrived, shorter⟩, pops, run⟩
      · exact orCrash_able _ crash
      simp only at run
      split at run
      · rcases bind_error run with closes | ⟨u, closes, run⟩
        · exact refuse_able _ _ closes
        · refine absurd run (enqueue_able all proper ?_)
          rw [(refuse_spares closes).1]
          exact queuePop_unused (orCrash_ok pops) unused
      · exact refuse_able _ _ run
    · exact absurd run (enqueue_able all proper unused)

/-- With an unused address the first section of a worker is possible. -/
theorem take_able {i address : Nat} {temp : Timeval} (proper : address ≠ 0)
    (unused : s.running.nodes address = none) : take i address temp worker s ≠ .error .disabled := by
  intro run
  unfold take at run
  split at run
  · exact absurd run (by simp)
  rw [if_pos ⟨proper, unused⟩] at run
  rcases bind_error run with crash | ⟨_, -, run⟩
  · exact orCrash_able _ crash
  rcases bind_error run with crash | ⟨_, -, run⟩
  · exact orCrash_able _ crash
  · exact absurd run (by simp)

/-- A state in which `malloc` has addresses to give. -/
structure Able (config : Config) (s : Server) : Prop where
  sane : Sane config s
  waiting : s.waiting.Bounded
  running : s.running.Bounded
  workers : s.workers ≠ []

theorem start_able (config : Config) {threads : List Timeval} (some : threads ≠ []) :
    Able config (start threads) where
  sane := ⟨_, _, _, start_sound config threads⟩
  waiting := by simp [start, queueCreate, Queue.Bounded]
  running := by simp [start, queueCreate, Queue.Bounded]
  workers := by simpa [start] using some

/-- Every step keeps it. -/
theorem Able.step {action : Action} (able : Able config s) (run : WebServer.step config action s = .ok t) :
    Able config t := by
  obtain ⟨held, waiting, handled, sound⟩ := able.sane
  obtain ⟨fresh, spares⟩ := step_spares run
  refine ⟨(sound.step action).reached run, able.waiting.spares spares.waiting, able.running.spares spares.running,
    fun none => able.workers ?_⟩
  rw [← List.length_eq_zero_iff, ← spares.workers, none, List.length_nil]

/-- Where no thread can enter a section, the system does not let it. -/
theorem Able.disabled (able : Able config s) (rests : Resting config s) (action : Action)
    (own : action.isOwn = true) (other : ∀ i, action ≠ .finish i) :
    WebServer.step config action s = .error .disabled := by
  obtain ⟨held, waiting, handled, sound⟩ := able.sane
  cases result : WebServer.step config action s with
  | ok t => exact absurd result (rests action t own other)
  | error stop => exact congrArg _ ((sound.step action).failed result)

/-- Then every worker sleeps or handles a connection. -/
theorem Able.places (able : Able config s) (rests : Resting config s) :
    ∀ w ∈ s.workers, w.place = .asleep ∨ ∃ fd, w.place = .handling fd := by
  obtain ⟨address, proper, unused⟩ := able.running.fresh
  intro w member
  obtain ⟨i, inside, rfl⟩ := List.getElem_of_mem member
  have found : s.workers[i]? = some s.workers[i] := List.getElem?_eq_getElem inside
  generalize s.workers[i] = w at found ⊢
  rcases w with ⟨place, arrival⟩
  cases place with
  | asleep => exact Or.inl rfl
  | handling fd => exact Or.inr ⟨fd, rfl⟩
  | locking =>
    have stuck := able.disabled rests (.take i address ⟨0, 0⟩) rfl fun _ => Action.noConfusion
    simp only [WebServer.step, found] at stuck
    exact absurd stuck (take_able proper unused)
  | woken =>
    have stuck := able.disabled rests (.take i address ⟨0, 0⟩) rfl fun _ => Action.noConfusion
    simp only [WebServer.step, found] at stuck
    exact absurd stuck (take_able proper unused)
  | retiring fd =>
    have stuck := able.disabled rests (.retire i) rfl fun _ => Action.noConfusion
    simp only [WebServer.step, found] at stuck
    rcases bind_error stuck with crash | ⟨_, -, run⟩
    · exact absurd crash (orCrash_able _)
    · exact absurd run (by simp)

theorem Server.handled_length (s : Server) : s.handled.length = s.workers.countP fun w => w.handles.isSome := by
  unfold Server.handled
  rw [List.length_map, List.length_filterMap_eq_countP]

/-- A worker that handles no connection then sleeps. -/
theorem Able.sleeper (able : Able config s) (rests : Resting config s)
    (spare : s.handled.length < s.workers.length) : 0 < s.workers.countP Worker.sleeps := by
  rw [Server.handled_length] at spare
  by_contra none
  have all : ∀ w ∈ s.workers, w.handles.isSome = true := by
    intro w member
    rcases able.places rests w member with asleep | ⟨fd, place⟩
    · exact absurd (List.countP_pos_iff.mpr ⟨w, member, by simp [Worker.sleeps, asleep]⟩) none
    · simp [Worker.handles, place]
  exact absurd (List.countP_eq_length.mpr all) (Nat.ne_of_lt spare)

/-- None is on its way to its first section. -/
theorem Able.unready (able : Able config s) (rests : Resting config s) : s.workers.countP Worker.ready = 0 := by
  refine List.countP_eq_zero.mpr fun w member => ?_
  rcases able.places rests w member with asleep | ⟨fd, place⟩
  · simp [Worker.ready, asleep]
  · simp [Worker.ready, place]

/-- The running requests are those that are handled. -/
theorem Able.busy (able : Able config s) (rests : Resting config s) :
    s.workers.countP Worker.busy = s.handled.length := by
  rw [Server.handled_length]
  refine List.countP_congr fun w member => ?_
  rcases able.places rests w member with asleep | ⟨fd, place⟩
  · simp [Worker.busy, Worker.handles, asleep]
  · simp [Worker.busy, Worker.handles, place]

/-- Where a worker is left over, nothing waits and the master holds no connection: with more
places in the queue than connections that are handled it does not sleep. -/
theorem Able.closed (able : Able config s) (rests : Resting config s)
    (spare : s.handled.length < s.workers.length)
    (room : config.schedalg = .block → s.handled.length < config.queueSize) :
    (s.kernel.closes ++ s.handled).Perm (List.range s.kernel.accepted.length) := by
  obtain ⟨held, waiting, handled, sound⟩ := able.sane
  have nothingWaits : waiting = [] := by
    have bound := sound.sleepers (able.sleeper rests spare)
    rw [able.unready rests] at bound
    exact List.eq_nil_of_length_eq_zero (Nat.le_zero.mp bound)
  have full : occupied s = s.handled.length := by
    obtain ⟨entries, holds, runs⟩ := sound.running
    have waits := sound.size
    have running := holds.length
    rw [nothingWaits, List.length_nil] at waits
    rw [runs, able.busy rests] at running
    simp [occupied, waits, running]
  have nothingHeld : held = [] := by
    obtain ⟨address, proper, unused⟩ := able.waiting.fresh
    have stuck := able.disabled rests (.serve ⟨address, fun _ => 0, fun _ => true⟩) rfl fun _ => Action.noConfusion
    cases place : s.master with
    | accepting => simpa [place, Master.holds] using sound.master.symm
    | asleep connfd arrival =>
      obtain ⟨policy, crowded⟩ := sound.stuck connfd arrival place
      have some := room policy
      omega
    | locking connfd arrival =>
      simp only [WebServer.step, place, Master.entering] at stuck
      exact absurd stuck (overload_able (fun _ => rfl) proper unused)
    | woken connfd arrival =>
      simp only [WebServer.step, place, Master.entering] at stuck
      exact absurd stuck (overload_able (fun _ => rfl) proper unused)
  have once := sound.owns.once
  rw [nothingHeld, nothingWaits, List.nil_append, List.nil_append, ← sound.places.2.2] at once
  exact List.perm_append_comm.trans once

/-- A step of a thread by itself keeps all that, and takes some of the patience. -/
theorem Able.own {action : Action} (able : Able config s) (own : action.isOwn = true)
    (run : WebServer.step config action s = .ok t) : Able config t ∧ t.patience < s.patience := by
  obtain ⟨held, waiting, handled, sound⟩ := able.sane
  exact ⟨able.step run, sound.own_patience own run⟩

end Settling

/-- A step other than the end of a connection closes what the master drops, which is
nothing when it waits for a place instead. -/
theorem Able.closes {action : Action} (able : Able config s) (other : ∀ i, action ≠ .finish i)
    (run : WebServer.step config action s = .ok t) : ∃ lost, t.kernel.closes = s.kernel.closes ++ lost ∧
      (config.schedalg = .block → lost = []) := by
  have same : t.kernel.closes = s.kernel.closes → ∃ lost, t.kernel.closes = s.kernel.closes ++ lost ∧
      (config.schedalg = .block → lost = []) := fun same => ⟨[], by simp [same], fun _ => rfl⟩
  obtain ⟨held, waiting, handled, sound⟩ := able.sane
  cases action with
  | accept connfd arrival =>
    simp only [WebServer.step] at run
    split at run
    · exact same (Except.ok.inj run ▸ rfl)
    · exact absurd run (by simp)
  | serve choice =>
    simp only [WebServer.step] at run
    cases enters : s.master.entering with
    | none =>
      rw [enters] at run
      exact absurd run (by simp)
    | some entry =>
      obtain ⟨c, rfl, rfl⟩ := sound.entering enters
      have owns : s.kernel.Owns (c :: waiting ++ handled) := sound.owns
      simp only [enters, Conn.entry] at run
      rcases overload_outcome config choice owns sound.queue with disabled | ⟨-, -, sleeps⟩ |
        ⟨removed, kept, admitted, u, decides, decided⟩
      · exact absurd (disabled.symm.trans run) (by simp)
      · exact same (Except.ok.inj (sleeps.symm.trans run) ▸ rfl)
      · obtain rfl := Except.ok.inj (decides.symm.trans run)
        refine ⟨_, congrArg Kernel.closes decided.kernel, fun policy => ?_⟩
        obtain ⟨rfl, rfl⟩ := decided.block policy
        rfl
  | take i address temp =>
    have takes : ∀ {worker : Worker}, s.workers[i]? = some worker → WebServer.take i address temp worker s = .ok t →
        t.kernel.closes = s.kernel.closes := by
      intro worker found run
      obtain ⟨front, back, here, split⟩ := split_at found
      rcases sound.take_outcome split address temp worker with disabled | ⟨rfl, sleeps⟩ |
        ⟨c, more, shorter, running, entries, rfl, _, _, _, _, takes⟩
      · exact absurd (disabled.symm.trans run) (by simp)
      · exact Except.ok.inj (sleeps.symm.trans run) ▸ rfl
      · exact Except.ok.inj (takes.symm.trans run) ▸ rfl
    simp only [WebServer.step] at run
    split at run
    · next found => exact same (takes found run)
    · next found => exact same (takes found run)
    · exact absurd run (by simp)
  | finish i => exact absurd rfl (other i)
  | retire i =>
    simp only [WebServer.step] at run
    split at run
    · next found =>
      obtain ⟨front, back, here, split⟩ := split_at found
      obtain ⟨running, entry, entries, -, -, -, retires⟩ := sound.retire_outcome here split
      exact same (Except.ok.inj (retires.symm.trans run) ▸ rfl)
    · exact absurd run (by simp)
  | wakeWorker i =>
    simp only [WebServer.step] at run
    split at run
    · exact same (Except.ok.inj run ▸ rfl)
    · exact absurd run (by simp)
  | wakeMaster => exact same (Except.ok.inj run ▸ rfl)

/-- A worker that handles an open connection closes it. -/
theorem Able.finishes (able : Able config s) {i : Nat} {fd : Int} {arrival : Timeval}
    (found : s.workers[i]? = some ⟨.handling fd, arrival⟩) : ∃ t, WebServer.step config (.finish i) s = .ok t ∧
      t.kernel.closes = s.kernel.closes ++ [s.kernel.connection fd] := by
  obtain ⟨held, waiting, handled, sound⟩ := able.sane
  obtain ⟨front, back, here, split⟩ := split_at found
  obtain ⟨c, now, rfl, member, after⟩ := sound.finish here
  simp only [WebServer.step, found, WebServer.finish, sound.owns.close member, orCrash, bind, Except.bind,
    sound.owns.connection member]
  exact ⟨_, rfl, rfl⟩

end OperatingSystems.WebServer
