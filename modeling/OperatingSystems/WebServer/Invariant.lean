import OperatingSystems.WebServer.Overload
import OperatingSystems.Runs

/-!
# The invariant of the web server

`Sound` relates a state to the connections the master holds, those that wait
and those that workers handle. Every step of every thread preserves it, and no
step from a sound state crashes.
-/

namespace OperatingSystems.WebServer

open Runs

/-- The state of the server between the sections. -/
structure Sound (config : Config) (s : Server) (held waiting handled : List Conn) : Prop where
  master : s.master.holds = held.map Conn.entry
  queue : Holds s.waiting (waiting.map Conn.entry)
  handling : s.workers.filterMap Worker.handles = handled.map Conn.fd
  owns : s.kernel.Owns (held ++ waiting ++ handled)
  running : ∃ entries, Holds s.running entries ∧ entries.length = s.workers.countP Worker.busy
  capacity : occupied s ≤ max config.queueSize 0
  sleepers : 0 < s.workers.countP Worker.sleeps → waiting.length ≤ s.workers.countP Worker.ready
  stuck : ∀ connfd arrival, s.master = .asleep connfd arrival →
    config.schedalg = .block ∧ config.queueSize ≤ occupied s
  ordered : (s.dispatched.map Prod.fst ++ waiting.map Conn.id ++ held.map Conn.id).Pairwise (· < ·)
  arrivals : ∀ d ∈ s.dispatched, ∃ fd, s.kernel.accepted[d.1]? = some (fd, d.2)
  lasting : config.schedalg = .block ∨ config.schedalg = .dropTail →
    s.queued = s.dispatched.map Prod.fst ++ waiting.map Conn.id
  prompt : config.schedalg = .block →
    s.dispatched.map Prod.fst ++ waiting.map Conn.id ++ held.map Conn.id =
      List.range s.kernel.accepted.length

/-- The state is sound for some connections. -/
def Sane (config : Config) (s : Server) : Prop := ∃ held waiting handled, Sound config s held waiting handled

variable {config : Config} {s t : Server} {c : Conn} {held waiting handled removed kept : List Conn}
  {front back : List Worker} {worker : Worker}

/-- A new server is sound. -/
theorem start_sound (config : Config) (threads : List Timeval) :
    Sound config (start threads) [] [] [] where
  master := rfl
  queue := holds_create
  handling := by
    refine List.filterMap_eq_nil_iff.mpr fun w member => ?_
    obtain ⟨arrival, _, rfl⟩ := List.mem_map.mp member
    rfl
  owns := ⟨fun c member => absurd member List.not_mem_nil, List.Perm.refl _⟩
  running := by
    refine ⟨[], holds_create, (List.countP_eq_zero.mpr fun w member => ?_).symm⟩
    obtain ⟨arrival, _, rfl⟩ := List.mem_map.mp member
    simp [Worker.busy]
  capacity := Int.le_max_right _ _
  sleepers := fun _ => Nat.zero_le _
  stuck := fun connfd arrival same => by simp [start] at same
  ordered := List.Pairwise.nil
  arrivals := fun d member => absurd member List.not_mem_nil
  lasting := fun _ => rfl
  prompt := fun _ => rfl

/-- A worker that is ready handles nothing. -/
theorem ready_idle (ready : worker.ready = true) : worker.busy = false ∧ worker.handles = none := by
  rcases worker with ⟨place, arrival⟩
  cases place <;> simp_all [Worker.ready, Worker.handles, Worker.busy]

/-- A broadcast leaves the master with what it holds. -/
theorem broadcast_holds (s : Server) : (broadcast s).master.holds = s.master.holds := by
  unfold broadcast
  cases s.master <;> rfl

/-- After a broadcast the master is not asleep. -/
theorem broadcast_awake (s : Server) (connfd : Int) (arrival : Timeval) :
    (broadcast s).master ≠ .asleep connfd arrival := by
  unfold broadcast
  cases s.master <;> simp [Master.wake]

namespace Sound

/-- The number of waiting requests is the size of the queue. -/
theorem size (sound : Sound config s held waiting handled) : queueSize s.waiting = waiting.length := by
  simpa using sound.queue.length

/-- Every number in play was given out. -/
theorem below (sound : Sound config s held waiting handled) {id : Nat}
    (member : id ∈ s.dispatched.map Prod.fst ++ waiting.map Conn.id ++ held.map Conn.id) :
    id < s.kernel.accepted.length := by
  have open_ : ∀ c ∈ held ++ waiting ++ handled, c.id < s.kernel.accepted.length := fun c listed =>
    (List.getElem?_eq_some_iff.mp (sound.owns.known c listed).2.2).1
  rcases List.mem_append.mp member with member | inHeld
  · rcases List.mem_append.mp member with earlier | inQueue
    · obtain ⟨d, listed, rfl⟩ := List.mem_map.mp earlier
      obtain ⟨fd, known⟩ := sound.arrivals d listed
      exact (List.getElem?_eq_some_iff.mp known).1
    · obtain ⟨c, listed, rfl⟩ := List.mem_map.mp inQueue
      exact open_ c (by simp [listed])
  · obtain ⟨c, listed, rfl⟩ := List.mem_map.mp inHeld
    exact open_ c (by simp [listed])

/-- The master accepts a connection. -/
theorem accept (sound : Sound config s held waiting handled) {connfd : Int} {arrival : Timeval}
    (idle : s.master = .accepting) (proper : 0 ≤ connfd) (unused : s.kernel.table connfd = none) :
    Sound config { s with
      master := .locking connfd arrival
      kernel := s.kernel.accept ⟨s.kernel.accepted.length, connfd, arrival⟩ }
      [⟨s.kernel.accepted.length, connfd, arrival⟩] waiting handled := by
  have none : held = [] := by simpa [idle, Master.holds] using sound.master.symm
  subst none
  have owns := sound.owns.accept (c := ⟨s.kernel.accepted.length, connfd, arrival⟩) proper unused rfl
  refine ⟨rfl, sound.queue, sound.handling, owns, sound.running, sound.capacity, sound.sleepers,
    fun _ _ same => by simp at same, ?_, fun d member => ?_, sound.lasting, fun policy => ?_⟩
  · refine List.pairwise_append.mpr ⟨by simpa using sound.ordered, List.pairwise_singleton _ _, ?_⟩
    intro id member other last
    obtain rfl : other = s.kernel.accepted.length := by simpa using last
    exact sound.below (List.mem_append_left _ member)
  · obtain ⟨fd, known⟩ := sound.arrivals d member
    refine ⟨fd, ?_⟩
    simpa [Kernel.accept, List.getElem?_append_left (List.getElem?_eq_some_iff.mp known).1] using known
  · have whole := sound.prompt policy
    simp only [List.map_nil, List.append_nil] at whole
    simp [Kernel.accept, List.range_succ, whole]

/-- The master goes to sleep. -/
theorem sleep (sound : Sound config s [c] waiting handled) (policy : config.schedalg = .block)
    (full : config.queueSize ≤ occupied s) :
    Sound config { s with master := .asleep c.fd c.arrival } [c] waiting handled :=
  ⟨rfl, sound.queue, sound.handling, sound.owns, sound.running, sound.capacity, sound.sleepers,
    fun _ _ _ => ⟨policy, full⟩, sound.ordered, sound.arrivals, sound.lasting, sound.prompt⟩

/-- A decision that drops no request keeps them all. -/
theorem kept_all {admitted : Bool} (decided : Decided config s t c waiting removed kept admitted)
    (none : removed = []) : waiting = kept := by
  have length := decided.parts.length_eq
  refine (decided.ordered.eq_of_length ?_).symm
  rw [List.length_append, none, List.length_nil] at length
  omega

/-- A decision closes the connections it drops, and its own if it is not admitted. -/
theorem decide_owns (sound : Sound config s [c] waiting handled) {admitted : Bool}
    (decided : Decided config s t c waiting removed kept admitted) :
    t.kernel.Owns ([] ++ (kept ++ if admitted then [c] else []) ++ handled) := by
  rw [decided.kernel]
  refine Kernel.Owns.shut (sound.owns.perm ?_)
  have parts := decided.parts
  cases admitted with
  | true =>
    simp only [if_true, List.append_nil, List.nil_append]
    have swap : ([c] ++ waiting ++ handled).Perm (waiting ++ [c] ++ handled) :=
      List.perm_append_comm.append_right _
    apply swap.trans
    rw [← List.append_assoc, ← List.append_assoc]
    exact (parts.append_right _).append_right _
  | false =>
    simp only [Bool.false_eq_true, if_false, List.append_nil, List.nil_append]
    have swap : ([c] ++ waiting ++ handled).Perm ([c] ++ (removed ++ kept) ++ handled) :=
      (parts.append_left [c]).append_right _
    apply swap.trans
    rw [← List.append_assoc, ← List.append_assoc]
    exact (List.perm_append_comm.append_right _).append_right _

/-- A decision stays within the capacity. -/
theorem decide_capacity (sound : Sound config s [c] waiting handled) {admitted : Bool}
    (decided : Decided config s t c waiting removed kept admitted) :
    occupied t ≤ max config.queueSize 0 := by
  have length := decided.parts.length_eq
  have size := sound.size
  have room := decided.queue.length
  have before := sound.capacity
  rw [List.length_append] at length
  simp only [List.length_map, List.length_append] at room
  unfold occupied at before ⊢
  rw [room, decided.running]
  cases admitted with
  | true =>
    simp only [if_true, List.length_singleton]
    rcases decided.room rfl with below | some
    · have := Int.le_max_left config.queueSize 0
      push_cast
      omega
    · push_cast
      omega
  | false =>
    simp only [Bool.false_eq_true, if_false, List.length_nil]
    push_cast
    omega

/-- The master decides on its connection. -/
theorem decide (sound : Sound config s [c] waiting handled) {admitted : Bool}
    (decided : Decided config s t c waiting removed kept admitted) :
    Sound config t [] (kept ++ if admitted then [c] else []) handled where
  master := by
    rw [decided.master]
    rfl
  queue := decided.queue
  handling := by
    rw [decided.workers.handles]
    exact sound.handling
  owns := sound.decide_owns decided
  running := by
    rw [decided.running, decided.workers.busy]
    exact sound.running
  capacity := sound.decide_capacity decided
  sleepers := by
    intro asleep
    have length := decided.parts.length_eq
    have sleeping := decided.workers.ready
    have fewer := decided.workers.sleeps
    have known := sound.sleepers (by omega)
    rw [List.length_append] at length ⊢
    cases admitted with
    | true =>
      have woken := decided.signals rfl (by omega)
      simp only [if_true, List.length_singleton]
      omega
    | false =>
      simp only [Bool.false_eq_true, if_false, List.length_nil]
      omega
  stuck := by
    intro connfd arrival same
    rw [decided.master] at same
    exact absurd same (by simp)
  ordered := by
    refine sound.ordered.sublist ?_
    rw [decided.dispatched, List.map_nil, List.append_nil, List.map_append, ← List.append_assoc]
    apply List.Sublist.append ((decided.ordered.map _).append_left _)
    cases admitted <;> simp
  arrivals := by
    rw [decided.dispatched, decided.kernel]
    exact sound.arrivals
  lasting := by
    intro policy
    have none : removed = [] := policy.elim (fun same => (decided.block same).1) decided.dropTail
    rw [decided.queued, decided.dispatched, sound.lasting policy, kept_all decided none, List.map_append,
      ← List.append_assoc]
    cases admitted <;> simp
  prompt := by
    intro policy
    obtain ⟨none, admits⟩ := decided.block policy
    rw [decided.dispatched, decided.kernel, admits]
    simp only [if_true, List.map_append, List.map_nil, List.append_nil]
    rw [← kept_all decided none, ← List.append_assoc]
    exact sound.prompt policy

/-- A worker finds no request and goes to sleep. -/
theorem rest (sound : Sound config s held [] handled) (split : s.workers = front ++ worker :: back)
    (idle : worker.busy = false) (idle' : worker.handles = none) :
    Sound config { s with workers := front ++ { worker with place := .asleep } :: back }
      held [] handled := by
  refine ⟨sound.master, sound.queue, ?_, sound.owns, ?_, sound.capacity, fun _ => Nat.zero_le _,
    sound.stuck, sound.ordered, sound.arrivals, sound.lasting, sound.prompt⟩
  · have same := sound.handling
    have none : ({ worker with place := .asleep } : Worker).handles = none := rfl
    rw [split] at same
    simpa [List.filterMap_cons, idle', none] using same
  · have none : ({ worker with place := .asleep } : Worker).busy = false := rfl
    obtain ⟨entries, holds, count⟩ := sound.running
    refine ⟨entries, holds, ?_⟩
    rw [count, split]
    simp [idle, none]

/-- The connections that workers handle, around one worker. -/
theorem around (sound : Sound config s held waiting handled) (split : s.workers = front ++ worker :: back)
    (idle : worker.handles = none) :
    ∃ before after, handled = before ++ after ∧ front.filterMap Worker.handles = before.map Conn.fd ∧
      back.filterMap Worker.handles = after.map Conn.fd := by
  have same := sound.handling
  rw [split, List.filterMap_append, List.filterMap_cons, idle] at same
  obtain ⟨before, after, parts, ahead, behind⟩ := List.append_eq_map_iff.mp same
  exact ⟨before, after, parts, ahead.symm, behind.symm⟩

/-- A worker takes the first request. -/
theorem take (sound : Sound config s held (c :: waiting) handled)
    (split : s.workers = front ++ worker :: back) (ready : worker.ready = true)
    {rest running : Queue} (popped : Holds rest (waiting.map Conn.entry))
    {entries : List Entry} {entry : Entry} (before : Holds s.running entries)
    (count : entries.length = s.workers.countP Worker.busy) (pushed : Holds running (entries ++ [entry])) :
    ∃ now, Sound config (broadcast { s with
      waiting := rest
      running := running
      workers := front ++ ⟨.handling c.fd, c.arrival⟩ :: back
      dispatched := s.dispatched ++ [(c.id, c.arrival)] }) held waiting now := by
  have idle := ready_idle ready
  obtain ⟨first, second, rfl, ahead, behind⟩ := sound.around split idle.2
  obtain ⟨u, isNext⟩ : ∃ u : Server, u = { s with
      waiting := rest
      running := running
      workers := front ++ ⟨.handling c.fd, c.arrival⟩ :: back
      dispatched := s.dispatched ++ [(c.id, c.arrival)] } := ⟨_, rfl⟩
  have wakes := wakes_broadcast u
  have workers : u.workers = front ++ ⟨.handling c.fd, c.arrival⟩ :: back := by rw [isNext]
  have ids : (s.dispatched ++ [(c.id, c.arrival)]).map Prod.fst ++ waiting.map Conn.id =
      s.dispatched.map Prod.fst ++ (c :: waiting).map Conn.id := by
    simp
  rw [← isNext]
  refine ⟨first ++ c :: second, ?_, ?_, ?_, ?_, ⟨entries ++ [entry], ?_, ?_⟩, ?_, fun asleep => ?_,
    fun connfd arrival same => ?_, ?_, fun d member => ?_, fun policy => ?_, fun policy => ?_⟩
  · rw [broadcast_holds, isNext]
    exact sound.master
  · rw [isNext]
    exact popped
  · rw [wakes.handles, workers]
    simp [List.filterMap_append, ahead, behind, Worker.handles]
  · have moved : (held ++ c :: waiting ++ (first ++ second)).Perm
        (held ++ waiting ++ (first ++ c :: second)) := by
      rw [List.append_assoc, List.append_assoc]
      apply List.Perm.append_left held
      rw [List.cons_append, ← List.append_assoc, ← List.append_assoc]
      exact List.perm_middle.symm
    rw [isNext]
    exact sound.owns.perm moved
  · rw [isNext]
    exact pushed
  · have one : (⟨.handling c.fd, c.arrival⟩ : Worker).busy = true := rfl
    rw [wakes.busy, workers, List.length_append, count, split]
    simp [idle.1, one]
    omega
  · have capacity := sound.capacity
    have size := sound.size
    have fewer := popped.length
    have sum := before.length
    have more := pushed.length
    rw [isNext]
    simp only [occupied, broadcast] at capacity ⊢
    simp only [List.length_cons, List.length_map, List.length_append, List.length_nil] at size fewer more
    push_cast at size more
    omega
  · have none := broadcast_sleeps u
    omega
  · exact absurd same (broadcast_awake u connfd arrival)
  · have order := sound.ordered
    rw [← ids] at order
    rw [isNext]
    exact order
  · rw [isNext] at member ⊢
    rcases List.mem_append.mp member with old | new
    · exact sound.arrivals d old
    · obtain rfl := List.mem_singleton.mp new
      exact ⟨c.fd, (sound.owns.known c (by simp)).2.2⟩
  · rw [isNext]
    exact (sound.lasting policy).trans ids.symm
  · have whole := sound.prompt policy
    rw [← ids] at whole
    rw [isNext]
    exact whole

/-- A worker closes the connection it has handled. -/
theorem finish (sound : Sound config s held waiting handled) {fd : Int} {arrival : Timeval}
    (split : s.workers = front ++ ⟨.handling fd, arrival⟩ :: back) :
    ∃ c now, c.fd = fd ∧ c ∈ held ++ waiting ++ handled ∧ Sound config { s with
      kernel := s.kernel.shut [c]
      workers := front ++ ⟨.retiring fd, arrival⟩ :: back } held waiting now := by
  have same := sound.handling
  rw [split, List.filterMap_append, List.filterMap_cons] at same
  obtain ⟨first, more, rfl, ahead, behind⟩ := List.append_eq_map_iff.mp same
  obtain ⟨c, second, rfl, here, behind⟩ := List.map_eq_cons_iff.mp behind
  refine ⟨c, first ++ second, here, by simp, sound.master, sound.queue, ?_, ?_, ?_, sound.capacity,
    fun asleep => ?_, sound.stuck, sound.ordered, sound.arrivals, sound.lasting, sound.prompt⟩
  · simp [List.filterMap_append, List.filterMap_cons, ahead, behind, Worker.handles]
  · refine Kernel.Owns.shut (sound.owns.perm ?_)
    rw [← List.append_assoc]
    apply List.perm_middle.trans
    rw [List.append_assoc]
    exact List.Perm.refl _
  · obtain ⟨entries, holds, count⟩ := sound.running
    refine ⟨entries, holds, ?_⟩
    rw [count, split]
    simp [List.countP_cons, Worker.busy]
  · have known := sound.sleepers
    rw [split] at known
    have awake : ∀ place, place = .handling fd ∨ place = .retiring fd →
        Worker.sleeps ⟨place, arrival⟩ = false ∧ Worker.ready ⟨place, arrival⟩ = false := by
      rintro place (rfl | rfl)
      · exact ⟨rfl, rfl⟩
      · exact ⟨rfl, rfl⟩
    simp only [List.countP_append, List.countP_cons, awake _ (Or.inl rfl), awake _ (Or.inr rfl),
      Bool.false_eq_true, if_false] at known asleep ⊢
    omega

/-- A worker retires its request. -/
theorem retire (sound : Sound config s held waiting handled) {fd : Int} {arrival : Timeval}
    (split : s.workers = front ++ ⟨.retiring fd, arrival⟩ :: back) {running : Queue}
    {entry : Entry} {entries : List Entry} (before : Holds s.running (entry :: entries))
    (count : (entry :: entries).length = s.workers.countP Worker.busy) (popped : Holds running entries) :
    Sound config (broadcast { s with
      running := running
      workers := front ++ ⟨.locking, arrival⟩ :: back }) held waiting handled := by
  obtain ⟨first, second, rfl, ahead, behind⟩ := sound.around split rfl
  obtain ⟨u, isNext⟩ : ∃ u : Server, u = { s with
      running := running
      workers := front ++ ⟨.locking, arrival⟩ :: back } := ⟨_, rfl⟩
  have wakes := wakes_broadcast u
  have workers : u.workers = front ++ ⟨.locking, arrival⟩ :: back := by rw [isNext]
  rw [← isNext]
  refine ⟨?_, by rw [isNext]; exact sound.queue, ?_, by rw [isNext]; exact sound.owns,
    ⟨entries, by rw [isNext]; exact popped, ?_⟩, ?_, fun asleep => ?_, fun connfd arrival same => ?_,
    by rw [isNext]; exact sound.ordered, by rw [isNext]; exact sound.arrivals,
    by rw [isNext]; exact sound.lasting, by rw [isNext]; exact sound.prompt⟩
  · rw [broadcast_holds, isNext]
    exact sound.master
  · rw [wakes.handles, workers]
    simp [List.filterMap_append, List.filterMap_cons, ahead, behind, Worker.handles]
  · rw [split] at count
    rw [wakes.busy, workers]
    simp [List.countP_cons, Worker.busy] at count ⊢
    omega
  · have capacity := sound.capacity
    have sum := before.length
    have less := popped.length
    rw [isNext]
    simp only [occupied, broadcast] at capacity ⊢
    simp only [List.length_cons] at sum
    push_cast at sum
    omega
  · have none := broadcast_sleeps u
    omega
  · exact absurd same (broadcast_awake u connfd arrival)

/-- A worker wakes up for no reason. -/
theorem wakeWorker (sound : Sound config s held waiting handled)
    (split : s.workers = front ++ worker :: back) :
    Sound config { s with workers := front ++ worker.wake :: back } held waiting handled := by
  have wakes : Wakes s.workers (front ++ worker.wake :: back) := by
    rw [split]
    have same : ∀ workers, Wakes workers workers := fun _ =>
      List.forall₂_same.mpr fun w _ => Or.inl rfl
    exact List.rel_append (same front) (List.Forall₂.cons (Or.inr rfl) (same back))
  have sleeping := wakes.ready
  have fewer := wakes.sleeps
  refine ⟨sound.master, sound.queue, wakes.handles.trans sound.handling, sound.owns, ?_, sound.capacity,
    fun asleep => ?_, sound.stuck, sound.ordered, sound.arrivals, sound.lasting, sound.prompt⟩
  · obtain ⟨entries, holds, count⟩ := sound.running
    exact ⟨entries, holds, count.trans wakes.busy.symm⟩
  · simp only at asleep ⊢
    have known := sound.sleepers (by omega)
    omega

/-- The master wakes up for no reason. -/
theorem wakeMaster (sound : Sound config s held waiting handled) :
    Sound config { s with master := s.master.wake } held waiting handled := by
  refine ⟨?_, sound.queue, sound.handling, sound.owns, sound.running, sound.capacity, sound.sleepers,
    fun connfd arrival same => ?_, sound.ordered, sound.arrivals, sound.lasting, sound.prompt⟩
  · rw [← sound.master]
    cases s.master <;> rfl
  · cases place : s.master <;> simp [place, Master.wake] at same

/-- What the first section of a worker comes to. -/
theorem take_outcome (sound : Sound config s held waiting handled) {i : Nat}
    (split : ∀ other, s.workers.set i other = front ++ other :: back) (address : Nat)
    (temp : Timeval) (worker : Worker) :
    WebServer.take i address temp worker s = .error .disabled ∨
      (waiting = [] ∧ WebServer.take i address temp worker s =
        .ok { s with workers := front ++ { worker with place := .asleep } :: back }) ∨
      ∃ c more rest running entries, waiting = c :: more ∧ Holds rest (more.map Conn.entry) ∧
        Holds s.running entries ∧ entries.length = s.workers.countP Worker.busy ∧
        Holds running (entries ++ [(c.fd, temp)]) ∧ WebServer.take i address temp worker s =
          .ok (broadcast { s with
            waiting := rest
            running := running
            workers := front ++ ⟨.handling c.fd, c.arrival⟩ :: back
            dispatched := s.dispatched ++ [(c.id, c.arrival)] }) := by
  have size := sound.size
  unfold WebServer.take
  cases waiting with
  | nil =>
    have none : queueSize s.waiting = 0 := size
    refine Or.inr (Or.inl ⟨rfl, ?_⟩)
    rw [if_pos none, split]
  | cons c more =>
    have some : ¬queueSize s.waiting = 0 := by
      simp only [List.length_cons] at size
      omega
    rw [if_neg some]
    split
    · next enabled =>
      obtain ⟨rest, pops, remains⟩ := queuePop_cons sound.queue worker.arrival
      obtain ⟨entries, holds, count⟩ := sound.running
      obtain ⟨running, pushes, appended⟩ := queuePush_appends holds c.fd temp enabled.1 enabled.2
      refine Or.inr (Or.inr ⟨c, more, rest, running, entries, rfl, remains, holds, count, appended, ?_⟩)
      have number : s.kernel.connection c.fd = c.id := sound.owns.connection (by simp)
      simp only [pops, orCrash, bind, Except.bind, Conn.entry, pushes, split, number]
    · exact Or.inl rfl

/-- What the second section of a worker comes to. -/
theorem retire_outcome (sound : Sound config s held waiting handled) {i : Nat} {fd : Int}
    {arrival : Timeval} (here : s.workers = front ++ ⟨.retiring fd, arrival⟩ :: back)
    (split : ∀ other, s.workers.set i other = front ++ other :: back) :
    ∃ running entry entries, Holds s.running (entry :: entries) ∧
      (entry :: entries).length = s.workers.countP Worker.busy ∧ Holds running entries ∧
      WebServer.retire i arrival s = .ok (broadcast { s with
        running := running
        workers := front ++ ⟨.locking, arrival⟩ :: back }) := by
  obtain ⟨entries, holds, count⟩ := sound.running
  cases entries with
  | nil =>
    have one : (⟨.retiring fd, arrival⟩ : Worker).busy = true := rfl
    rw [here] at count
    simp [one] at count
  | cons entry entries =>
    obtain ⟨running, pops, remains⟩ := queuePop_cons holds ⟨0, 0⟩
    refine ⟨running, entry, entries, holds, count, remains, ?_⟩
    unfold WebServer.retire
    simp only [pops, orCrash, bind, Except.bind, split]

/-- The connection that the master carries into its section. -/
theorem entering (sound : Sound config s held waiting handled) {entry : Entry}
    (enters : s.master.entering = some entry) : ∃ c, held = [c] ∧ c.entry = entry := by
  have carried : s.master.holds = [entry] := by
    cases place : s.master <;> simp_all [Master.entering, Master.holds]
  have one := sound.master
  rw [carried] at one
  obtain ⟨c, tail, rfl, same, none⟩ := List.map_eq_cons_iff.mp one.symm
  rw [List.map_eq_nil_iff.mp none]
  exact ⟨c, rfl, same⟩

/-- The section in which a ready worker takes a request, entered from either place. -/
theorem take_step (sound : Sound config s held waiting handled) {i address : Nat} {temp : Timeval}
    (found : s.workers[i]? = some worker) (ready : worker.ready = true) :
    Ends (Sane config) (· = .disabled) (WebServer.take i address temp worker s) := by
  obtain ⟨front, back, here, split⟩ := split_at found
  rcases sound.take_outcome split address temp worker with disabled | ⟨rfl, run⟩ |
    ⟨c, more, rest, running, entries, rfl, popped, before, count, pushed, run⟩
  · rw [disabled]
    rfl
  · rw [run]
    obtain ⟨idle, free⟩ := ready_idle ready
    exact ⟨_, _, _, sound.rest here idle free⟩
  · rw [run]
    obtain ⟨now, after⟩ := sound.take here ready popped before count pushed
    exact ⟨_, _, _, after⟩

/-- No step crashes, and every step leaves a sound state. -/
theorem step (sound : Sound config s held waiting handled) (action : Action) :
    Ends (Sane config) (· = .disabled) (step config action s) := by
  cases action with
  | accept connfd arrival =>
    by_cases enabled : s.master = .accepting ∧ 0 ≤ connfd ∧ s.kernel.table connfd = none
    · simp only [WebServer.step, if_pos enabled]
      exact ⟨_, _, _, sound.accept enabled.1 enabled.2.1 enabled.2.2⟩
    · simp only [WebServer.step, if_neg enabled]
      rfl
  | serve choice =>
    simp only [WebServer.step]
    cases enters : s.master.entering with
    | none => rfl
    | some entry =>
      obtain ⟨c, rfl, rfl⟩ := sound.entering enters
      rcases overload_outcome config choice sound.owns sound.queue with disabled |
        ⟨policy, full, run⟩ | ⟨removed, kept, admitted, t, run, decided⟩
      · simp only [Conn.entry, disabled]
        rfl
      · simp only [Conn.entry, run]
        exact ⟨_, _, _, sound.sleep policy full⟩
      · simp only [Conn.entry, run]
        exact ⟨_, _, _, sound.decide decided⟩
  | take i address temp =>
    simp only [WebServer.step]
    cases found : s.workers[i]? with
    | none => rfl
    | some worker =>
      rcases worker with ⟨place, arrival⟩
      cases place with
      | locking => exact sound.take_step found rfl
      | woken => exact sound.take_step found rfl
      | _ => rfl
  | finish i =>
    simp only [WebServer.step]
    cases found : s.workers[i]? with
    | none => rfl
    | some worker =>
      obtain ⟨place, arrival⟩ := worker
      cases place with
      | handling fd =>
        obtain ⟨front, back, here, split⟩ := split_at found
        obtain ⟨c, now, rfl, member, after⟩ := sound.finish here
        simp only [WebServer.finish, sound.owns.close member, orCrash, bind, Except.bind, split]
        exact ⟨_, _, _, after⟩
      | _ => rfl
  | retire i =>
    simp only [WebServer.step]
    cases found : s.workers[i]? with
    | none => rfl
    | some worker =>
      obtain ⟨place, arrival⟩ := worker
      cases place with
      | retiring fd =>
        obtain ⟨front, back, here, split⟩ := split_at found
        obtain ⟨running, entry, entries, before, count, popped, run⟩ := sound.retire_outcome here split
        simp only [run]
        exact ⟨_, _, _, sound.retire here before count popped⟩
      | _ => rfl
  | wakeWorker i =>
    simp only [WebServer.step]
    cases found : s.workers[i]? with
    | none => rfl
    | some worker =>
      obtain ⟨front, back, here, split⟩ := split_at found
      simp only [split]
      exact ⟨_, _, _, sound.wakeWorker here⟩
  | wakeMaster => exact ⟨_, _, _, sound.wakeMaster⟩

end Sound

/-- Perform the steps of some schedule on a new server. -/
def serve (config : Config) (threads : List Timeval) (actions : List Action) : Except Stop Server :=
  execute (step config) actions (start threads)

/-- Every schedule keeps the server sound. -/
theorem serve_sound (config : Config) (threads : List Timeval) (actions : List Action) :
    Ends (Sane config) (· = .disabled) (serve config threads actions) := by
  refine execute_ends (fun action s sane _ => ?_) ⟨_, _, _, start_sound config threads⟩
    (Obeys.always (step config) actions (start threads))
  obtain ⟨held, waiting, handled, sound⟩ := sane
  exact sound.step action

end OperatingSystems.WebServer
