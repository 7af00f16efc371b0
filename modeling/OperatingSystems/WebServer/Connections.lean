import OperatingSystems.WebServer.Server

/-!
# Connections and the threads that hold them

A connection is held by the master, waits in the queue, is handled by a worker
or was closed. The kernel's table tells the open ones apart by their
descriptors, which no two of them share.
-/

namespace OperatingSystems.WebServer

/-- An accepted connection: its number, its descriptor and its arrival time. -/
structure Conn where
  id : Nat
  fd : Int
  arrival : Timeval
deriving DecidableEq, Repr

/-- What a queue stores of a connection. -/
def Conn.entry (c : Conn) : Entry := (c.fd, c.arrival)

/-- The table knows these open connections, and with the closed ones they are
all that were accepted, each once. -/
structure Kernel.Owns (kernel : Kernel) (conns : List Conn) : Prop where
  known : ∀ c ∈ conns, 0 ≤ c.fd ∧ kernel.table c.fd = some c.id ∧
    kernel.accepted[c.id]? = some c.entry
  once : (conns.map Conn.id ++ kernel.closes).Perm (List.range kernel.accepted.length)

/-- The kernel after these connections were closed. -/
def Kernel.shut (kernel : Kernel) (gone : List Conn) : Kernel :=
  { kernel with
    table := fun fd => if fd ∈ gone.map Conn.fd then none else kernel.table fd
    closes := kernel.closes ++ gone.map Conn.id }

/-- The kernel after a connection was accepted. -/
def Kernel.accept (kernel : Kernel) (c : Conn) : Kernel :=
  { kernel with
    accepted := kernel.accepted ++ [c.entry]
    table := fun fd => if fd = c.fd then some c.id else kernel.table fd }

variable {kernel : Kernel} {conns rest gone : List Conn} {c d : Conn}

@[simp] theorem shut_nil : kernel.shut [] = kernel := by
  simp [Kernel.shut]

theorem shut_shut {more : List Conn} : (kernel.shut gone).shut more = kernel.shut (gone ++ more) := by
  unfold Kernel.shut
  congr 1
  · funext fd
    rw [List.map_append]
    by_cases first : fd ∈ gone.map Conn.fd <;> by_cases second : fd ∈ more.map Conn.fd <;>
      simp only [List.mem_append, first, second, or_true, or_false, if_true, if_false]
  · simp

namespace Kernel.Owns

/-- Only which connections are open matters. -/
theorem perm (owns : kernel.Owns conns) (same : conns.Perm rest) : kernel.Owns rest where
  known := fun c member => owns.known c (same.mem_iff.mpr member)
  once := ((same.map _).symm.append_right _).trans owns.once

/-- Open connections have different numbers. -/
theorem nodup (owns : kernel.Owns conns) : (conns.map Conn.id ++ kernel.closes).Nodup :=
  owns.once.nodup_iff.mpr List.nodup_range

/-- Two open connections do not share a descriptor. -/
theorem apart (owns : kernel.Owns (gone ++ rest)) (left : c ∈ gone) (right : d ∈ rest) :
    c.fd ≠ d.fd := by
  intro same
  have first := (owns.known c (by simp [left])).2.1
  have second := (owns.known d (by simp [right])).2.1
  rw [same, second] at first
  have ids := (List.nodup_append.mp owns.nodup).1
  rw [List.map_append, List.nodup_append] at ids
  exact ids.2.2 c.id (List.mem_map_of_mem left) d.id (List.mem_map_of_mem right)
    (Option.some.inj first).symm

/-- A new connection takes a descriptor that is not in use. -/
theorem accept (owns : kernel.Owns conns) (proper : 0 ≤ c.fd) (unused : kernel.table c.fd = none)
    (number : c.id = kernel.accepted.length) : (kernel.accept c).Owns (c :: conns) where
  known := by
    intro d member
    rcases List.mem_cons.mp member with rfl | member
    · exact ⟨proper, by simp [Kernel.accept], by simp [Kernel.accept, number]⟩
    · obtain ⟨sign, table, entry⟩ := owns.known d member
      have differs : d.fd ≠ c.fd := by
        intro same
        rw [same, unused] at table
        exact absurd table (by simp)
      have old : d.id < kernel.accepted.length := (List.getElem?_eq_some_iff.mp entry).1
      refine ⟨sign, ?_, ?_⟩
      · simpa [Kernel.accept, differs] using table
      · simpa [Kernel.accept, List.getElem?_append_left old] using entry
  once := by
    simp only [Kernel.accept, List.map_cons, List.cons_append, List.length_append,
      List.length_singleton, List.range_succ, number]
    exact (owns.once.cons _).trans (List.perm_append_singleton _ _).symm

/-- Closed connections are open no longer. -/
theorem shut (owns : kernel.Owns (gone ++ rest)) : (kernel.shut gone).Owns rest where
  known := by
    intro d member
    obtain ⟨sign, table, entry⟩ := owns.known d (by simp [member])
    refine ⟨sign, ?_, entry⟩
    have other : d.fd ∉ gone.map Conn.fd := by
      intro listed
      obtain ⟨c, closed, same⟩ := List.mem_map.mp listed
      exact owns.apart closed member same
    exact (if_neg other).trans table
  once := by
    refine List.Perm.trans ?_ owns.once
    simp only [Kernel.shut, List.map_append]
    have swap : (rest.map Conn.id ++ kernel.closes ++ gone.map Conn.id).Perm
        (gone.map Conn.id ++ (rest.map Conn.id ++ kernel.closes)) := List.perm_append_comm
    rwa [List.append_assoc, ← List.append_assoc (gone.map Conn.id)] at swap

/-- `Close` on an open connection. -/
theorem close (owns : kernel.Owns conns) (member : c ∈ conns) :
    kernel.close c.fd = some (kernel.shut [c]) := by
  unfold Kernel.close
  rw [(owns.known c member).2.1]
  simp [Kernel.shut]

/-- `Close` on several open connections. -/
theorem closeAll (owns : kernel.Owns (gone ++ rest)) :
    kernel.closeAll (gone.map Conn.fd) = some (kernel.shut gone) := by
  induction gone generalizing kernel with
  | nil => simp [Kernel.closeAll]
  | cons c gone inductionHypothesis =>
    have next : (kernel.shut [c]).Owns (gone ++ rest) := shut owns
    rw [List.map_cons, Kernel.closeAll, owns.close (by simp)]
    simp only [Option.bind_eq_bind, Option.bind_some]
    rw [inductionHypothesis next, shut_shut]
    rfl

/-- The table finds the number of an open connection. -/
theorem connection (owns : kernel.Owns conns) (member : c ∈ conns) :
    kernel.connection c.fd = c.id := by
  simp [Kernel.connection, (owns.known c member).2.1]

end Kernel.Owns

/-- The connection the master holds. -/
def Master.holds : Master → List Entry
  | .accepting => []
  | .locking connfd arrival | .asleep connfd arrival | .woken connfd arrival => [(connfd, arrival)]

/-- The descriptor of the connection a worker handles. -/
def Worker.handles (worker : Worker) : Option Int :=
  match worker.place with
  | .handling fd => some fd
  | _ => none

/-- The worker is between its two sections. -/
def Worker.busy (worker : Worker) : Bool :=
  match worker.place with
  | .handling _ | .retiring _ => true
  | _ => false

/-- The worker is awake and on its way to take a request. -/
def Worker.ready (worker : Worker) : Bool :=
  match worker.place with
  | .locking | .woken => true
  | _ => false

/-- The worker is asleep. -/
def Worker.sleeps (worker : Worker) : Bool := worker.place == .asleep

@[simp] theorem wake_handles (worker : Worker) : worker.wake.handles = worker.handles := by
  unfold Worker.wake
  split <;> simp_all [Worker.handles]

@[simp] theorem wake_busy (worker : Worker) : worker.wake.busy = worker.busy := by
  unfold Worker.wake
  split <;> simp_all [Worker.busy]

@[simp] theorem wake_sleeps (worker : Worker) : worker.wake.sleeps = false := by
  unfold Worker.wake
  split <;> simp_all [Worker.sleeps]

@[simp] theorem wake_ready (worker : Worker) : worker.wake.ready = (worker.ready || worker.sleeps) := by
  rcases worker with ⟨place, arrival⟩
  cases place <;> simp [Worker.wake, Worker.ready, Worker.sleeps]

/-- Some of the sleepers were woken. -/
abbrev Wakes (before after : List Worker) : Prop :=
  List.Forall₂ (fun w v => v = w ∨ v = w.wake) before after

variable {before after front back workers : List Worker} {worker : Worker} {i : Nat}

namespace Wakes

theorem handles (wakes : Wakes before after) :
    after.filterMap Worker.handles = before.filterMap Worker.handles := by
  induction wakes with
  | nil => rfl
  | cons head _ inductionHypothesis =>
    rcases head with rfl | rfl <;> simp [List.filterMap_cons, inductionHypothesis]

theorem busy (wakes : Wakes before after) :
    after.countP Worker.busy = before.countP Worker.busy := by
  induction wakes with
  | nil => rfl
  | cons head _ inductionHypothesis =>
    rcases head with rfl | rfl <;> simp [List.countP_cons, inductionHypothesis]

/-- A woken sleeper is ready. -/
theorem ready (wakes : Wakes before after) :
    after.countP Worker.ready + after.countP Worker.sleeps =
      before.countP Worker.ready + before.countP Worker.sleeps := by
  induction wakes with
  | nil => rfl
  | @cons w _ _ _ head _ inductionHypothesis =>
    rcases head with rfl | rfl
    · simp only [List.countP_cons]
      omega
    · have exclusive : w.ready = true → w.sleeps = false := by
        rcases w with ⟨place, arrival⟩
        cases place <;> simp [Worker.ready, Worker.sleeps]
      simp only [List.countP_cons, wake_ready, wake_sleeps]
      cases ready : w.ready <;> cases sleeps : w.sleeps <;> simp_all <;> omega

theorem sleeps (wakes : Wakes before after) :
    after.countP Worker.sleeps ≤ before.countP Worker.sleeps := by
  induction wakes with
  | nil => exact Nat.le_refl _
  | cons head _ inductionHypothesis =>
    rcases head with rfl | rfl
    · simp only [List.countP_cons]
      omega
    · simp only [List.countP_cons, wake_sleeps, Bool.false_eq_true, if_false]
      omega

end Wakes

/-- A broadcast wakes all. -/
theorem wakes_broadcast (s : Server) : Wakes s.workers (broadcast s).workers := by
  unfold broadcast Wakes
  exact List.forall₂_map_right_iff.mpr (List.forall₂_same.mpr fun w _ => Or.inr rfl)

theorem broadcast_sleeps (s : Server) : (broadcast s).workers.countP Worker.sleeps = 0 := by
  simp [broadcast, List.countP_eq_zero]

/-- A signal wakes the workers chosen. -/
theorem wakes_signal (choice : Nat → Bool) (s : Server) : Wakes s.workers (signal choice s).workers := by
  unfold signal Wakes
  generalize s.workers = workers
  induction workers generalizing choice with
  | nil => exact List.Forall₂.nil
  | cons w workers inductionHypothesis =>
    rw [List.mapIdx_cons]
    refine List.Forall₂.cons ?_ (inductionHypothesis fun i => choice (i + 1))
    split
    · exact Or.inr rfl
    · exact Or.inl rfl

/-- At least one sleeper is woken when there is one. -/
theorem signal_sleeps {choice : Nat → Bool} {s : Server} (signals : Signals choice s)
    (asleep : 0 < s.workers.countP Worker.sleeps) :
    (signal choice s).workers.countP Worker.sleeps < s.workers.countP Worker.sleeps := by
  obtain ⟨w, member, sleeps⟩ := List.countP_pos_iff.mp asleep
  obtain ⟨i, inside, rfl⟩ := List.getElem_of_mem member
  have place : s.workers[i].place = .asleep := by simpa [Worker.sleeps] using sleeps
  obtain ⟨j, bound, sleeping, chosen⟩ := signals ⟨i, inside, by simp [inside, place]⟩
  have wakes := wakes_signal choice s
  have halves := List.take_append_drop j s.workers
  -- The chosen sleeper splits the workers; on both sides none falls asleep.
  have split : s.workers = s.workers.take j ++ s.workers[j] :: s.workers.drop (j + 1) := by
    rw [← List.drop_eq_getElem_cons bound, halves]
  have image : (signal choice s).workers = (signal choice s).workers.take j ++
      s.workers[j].wake :: (signal choice s).workers.drop (j + 1) := by
    have inImage : j < (signal choice s).workers.length := by simpa [signal] using bound
    have here : (signal choice s).workers[j] = s.workers[j].wake := by
      simp [signal, chosen]
    rw [← here, ← List.drop_eq_getElem_cons inImage, List.take_append_drop]
  have ahead := Wakes.sleeps (List.forall₂_take j wakes)
  have behind := Wakes.sleeps (List.forall₂_drop (j + 1) wakes)
  have here : s.workers[j].sleeps = true := by
    rw [List.getElem?_eq_getElem bound] at sleeping
    simpa [Worker.sleeps] using sleeping
  rw [split, image]
  simp only [List.countP_append, List.countP_cons, wake_sleeps, here]
  simp
  omega

/-- A worker is found by its number. -/
theorem split_at (found : workers[i]? = some worker) :
    ∃ front back, workers = front ++ worker :: back ∧
      ∀ other, workers.set i other = front ++ other :: back := by
  obtain ⟨bound, rfl⟩ := List.getElem?_eq_some_iff.mp found
  refine ⟨workers.take i, workers.drop (i + 1), ?_, fun other => ?_⟩
  · rw [← List.drop_eq_getElem_cons bound, List.take_append_drop]
  · exact List.set_eq_take_append_cons_drop.trans (if_pos bound)

end OperatingSystems.WebServer
