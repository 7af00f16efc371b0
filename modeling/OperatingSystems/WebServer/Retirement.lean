import OperatingSystems.WebServer.Invariant

/-!
# The requests that run

A worker that has handled a request removes the oldest entry of
`running_requests`, whichever request it handled. The entries are those of the
requests being handled only while the requests are retired in the order in
which they were taken.
-/

namespace OperatingSystems.WebServer

open Runs

/-- The descriptor a worker popped and has not retired. -/
def Worker.current (worker : Worker) : Option Int :=
  match worker.place with
  | .handling fd | .retiring fd => some fd
  | _ => none

/-- The descriptors in `running_requests` are those of the workers. -/
def Matches (s : Server) : Prop :=
  ((contents s.running).map Prod.fst).Perm (s.workers.filterMap Worker.current)

instance (s : Server) : Decidable (Matches s) := inferInstanceAs (Decidable (List.Perm _ _))

/-- A worker retires its request only when that is the one taken first of those
that run. -/
def InOrder (action : Action) (s : Server) : Prop :=
  match action with
  | .retire i => ∀ worker, s.workers[i]? = some worker → ∀ fd, worker.place = .retiring fd →
      (contents s.running).head?.map Prod.fst = some fd
  | _ => True

variable {config : Config} {s t : Server} {held waiting handled : List Conn} {front back : List Worker}
  {worker : Worker} {before after : List Worker}

@[simp] theorem wake_current (worker : Worker) : worker.wake.current = worker.current := by
  unfold Worker.wake
  split <;> simp_all [Worker.current]

theorem Wakes.current (wakes : Wakes before after) :
    after.filterMap Worker.current = before.filterMap Worker.current := by
  induction wakes with
  | nil => rfl
  | cons head _ inductionHypothesis =>
    rcases head with rfl | rfl <;> simp [List.filterMap_cons, inductionHypothesis]

/-- A step that changes neither the queue of running requests nor what the
workers handle keeps the two equal. -/
theorem Matches.frame (agrees : Matches s) (running : t.running = s.running)
    (workers : t.workers.filterMap Worker.current = s.workers.filterMap Worker.current) :
    Matches t := by
  unfold Matches
  rw [running, workers]
  exact agrees

/-- A new server runs nothing. -/
theorem start_matches (threads : List Timeval) : Matches (start threads) := by
  have none : (start threads).workers.filterMap Worker.current = [] := by
    refine List.filterMap_eq_nil_iff.mpr fun w member => ?_
    obtain ⟨arrival, _, rfl⟩ := List.mem_map.mp member
    rfl
  unfold Matches
  rw [none]
  exact List.Perm.refl _

/-- A worker that takes a request adds its descriptor on both sides. -/
theorem Matches.take (agrees : Matches s) (split : s.workers = front ++ worker :: back)
    (idle : worker.current = none) {rest running : Queue} {entries : List Entry} {fd : Int}
    {arrival temp : Timeval} {dispatched : List (Nat × Timeval)} (before : Holds s.running entries)
    (pushed : Holds running (entries ++ [(fd, temp)])) :
    Matches (broadcast { s with
      waiting := rest
      running := running
      workers := front ++ ⟨.handling fd, arrival⟩ :: back
      dispatched := dispatched }) := by
  unfold Matches at agrees ⊢
  rw [(wakes_broadcast _).current]
  rw [before.contents, split, List.filterMap_append, List.filterMap_cons, idle] at agrees
  have taken : (⟨.handling fd, arrival⟩ : Worker).current = some fd := rfl
  simp only [broadcast, pushed.contents, List.map_append, List.filterMap_append,
    List.filterMap_cons, taken]
  exact (List.perm_append_singleton fd _).trans ((agrees.cons fd).trans List.perm_middle.symm)

/-- A worker that retires keeps the two sides equal exactly when the entry it
removes carries its own descriptor. -/
theorem Matches.retire_iff (agrees : Matches s) {fd : Int} {arrival : Timeval}
    (split : s.workers = front ++ ⟨.retiring fd, arrival⟩ :: back) {running : Queue} {entry : Entry}
    {entries : List Entry} (before : Holds s.running (entry :: entries)) (popped : Holds running entries) :
    Matches (broadcast { s with
      running := running
      workers := front ++ ⟨.locking, arrival⟩ :: back }) ↔ entry.1 = fd := by
  unfold Matches at agrees ⊢
  rw [(wakes_broadcast _).current]
  have retiring : (⟨.retiring fd, arrival⟩ : Worker).current = some fd := rfl
  have idle : (⟨.locking, arrival⟩ : Worker).current = none := rfl
  rw [before.contents, split, List.filterMap_append, List.filterMap_cons, retiring, List.map_cons]
    at agrees
  simp only [broadcast, popped.contents, List.filterMap_append, List.filterMap_cons, idle]
  have both := agrees.trans List.perm_middle
  constructor
  · intro rest
    have counts := (both.symm.trans (rest.cons entry.1)).count_eq fd
    by_contra other
    simp [other] at counts
  · rintro rfl
    exact both.cons_inv

/-- What the overload policies do with the waiting queue leaves the two sides equal. -/
theorem Sound.serve_matches (sound : Sound config s held waiting handled) (agrees : Matches s)
    (choice : Choice) :
    Ends Matches (· = .disabled) (WebServer.step config (.serve choice) s) := by
  simp only [WebServer.step]
  cases enters : s.master.entering with
  | none => rfl
  | some entry =>
    obtain ⟨c, rfl, rfl⟩ := sound.entering enters
    rcases overload_outcome config choice sound.owns sound.queue with disabled |
      ⟨policy, full, run⟩ | ⟨removed, kept, admitted, t, run, decided⟩
    · simp only [Conn.entry, disabled]
      rfl
    · simp only [Conn.entry, run]
      exact agrees
    · simp only [Conn.entry, run]
      exact agrees.frame decided.running decided.workers.current

/-- A worker that may look at the waiting queue sleeps or takes a request. -/
theorem Sound.take_matches (sound : Sound config s held waiting handled) (agrees : Matches s)
    {i : Nat} (found : s.workers[i]? = some worker) (ready : worker.ready = true) (address : Nat)
    (temp : Timeval) :
    Ends Matches (· = .disabled) (WebServer.take i address temp worker s) := by
  have idle : worker.current = none := by
    rcases worker with ⟨place, arrival⟩
    cases place <;> simp_all [Worker.ready, Worker.current]
  obtain ⟨front, back, here, split⟩ := split_at found
  rcases sound.take_outcome split address temp worker with disabled | ⟨rfl, run⟩ |
    ⟨c, more, rest, running, entries, rfl, popped, before, count, pushed, run⟩
  · rw [disabled]
    rfl
  · rw [run]
    refine agrees.frame rfl ?_
    have asleep : ({ worker with place := .asleep } : Worker).current = none := rfl
    simp only [here, List.filterMap_append, List.filterMap_cons, idle, asleep]
  · rw [run]
    exact agrees.take here idle before pushed

/-- A worker that has answered a request still holds its entry. -/
theorem Sound.finish_matches (sound : Sound config s held waiting handled) (agrees : Matches s)
    (i : Nat) : Ends Matches (· = .disabled) (WebServer.step config (.finish i) s) := by
  simp only [WebServer.step]
  cases found : s.workers[i]? with
  | none => rfl
  | some worker =>
    obtain ⟨place, arrival⟩ := worker
    cases place with
    | handling fd =>
      obtain ⟨front, back, here, split⟩ := split_at found
      obtain ⟨c, now, rfl, member, _⟩ := sound.finish here
      simp only [WebServer.finish, sound.owns.close member, orCrash, bind, Except.bind, split]
      refine agrees.frame rfl ?_
      have one : (⟨.handling c.fd, arrival⟩ : Worker).current = some c.fd := rfl
      have two : (⟨.retiring c.fd, arrival⟩ : Worker).current = some c.fd := rfl
      simp only [here, List.filterMap_append, List.filterMap_cons, one, two]
    | _ => rfl

/-- A worker that retires a request keeps the two sides equal exactly when it
does so in order. -/
theorem Sound.retire_matches_iff (sound : Sound config s held waiting handled) (agrees : Matches s)
    (i : Nat) :
    InOrder (.retire i) s ↔ Ends Matches (· = .disabled) (WebServer.step config (.retire i) s) := by
  simp only [WebServer.step, InOrder]
  cases found : s.workers[i]? with
  | none => exact ⟨fun _ => rfl, fun _ worker absent => absurd absent (by simp)⟩
  | some worker =>
    obtain ⟨place, arrival⟩ := worker
    cases place with
    | retiring fd =>
      obtain ⟨front, back, here, split⟩ := split_at found
      obtain ⟨running, entry, entries, before, count, popped, run⟩ := sound.retire_outcome here split
      simp only [run, before.contents]
      refine Iff.trans ?_ (agrees.retire_iff here before popped).symm
      simp
    | _ => simp [Ends]

/-- A step keeps the two sides equal exactly when it retires in order. -/
theorem Sound.matches_iff (sound : Sound config s held waiting handled) (agrees : Matches s)
    (action : Action) :
    InOrder action s ↔ Ends Matches (· = .disabled) (WebServer.step config action s) := by
  cases action with
  | accept connfd arrival =>
    by_cases enabled : s.master = .accepting ∧ 0 ≤ connfd ∧ s.kernel.table connfd = none
    · simp only [WebServer.step, if_pos enabled]
      exact ⟨fun _ => agrees, fun _ => trivial⟩
    · simp only [WebServer.step, if_neg enabled]
      exact ⟨fun _ => rfl, fun _ => trivial⟩
  | serve choice => exact ⟨fun _ => sound.serve_matches agrees choice, fun _ => trivial⟩
  | take i address temp =>
    refine ⟨fun _ => ?_, fun _ => trivial⟩
    simp only [WebServer.step]
    cases found : s.workers[i]? with
    | none => rfl
    | some worker =>
      rcases worker with ⟨place, arrival⟩
      cases place with
      | locking => exact sound.take_matches agrees found rfl address temp
      | woken => exact sound.take_matches agrees found rfl address temp
      | _ => rfl
  | finish i => exact ⟨fun _ => sound.finish_matches agrees i, fun _ => trivial⟩
  | retire i => exact sound.retire_matches_iff agrees i
  | wakeWorker i =>
    refine ⟨fun _ => ?_, fun _ => trivial⟩
    simp only [WebServer.step]
    cases found : s.workers[i]? with
    | none => rfl
    | some worker =>
      obtain ⟨front, back, here, split⟩ := split_at found
      simp only [split]
      refine agrees.frame rfl ?_
      simp only [here, List.filterMap_append, List.filterMap_cons, wake_current]
  | wakeMaster => exact ⟨fun _ => agrees, fun _ => trivial⟩

/-- Under a schedule the queue of running requests holds what the workers handle
at every moment exactly when every request is retired in its turn. -/
theorem serve_matches_iff (config : Config) (threads : List Timeval) (actions : List Action) :
    Obeys (step config) InOrder actions (start threads) ↔
      ∀ n, Ends Matches (· = .disabled) (serve config threads (actions.take n)) := by
  refine obeys_iff (I := Sane config) (fun action s sane => ?_) (fun action s sane agrees => ?_)
    ⟨_, _, _, start_sound config threads⟩ (start_matches threads)
  · obtain ⟨held, waiting, handled, sound⟩ := sane
    exact sound.step action
  · obtain ⟨held, waiting, handled, sound⟩ := sane
    exact sound.matches_iff agrees action

/-- Two requests of which the second is retired first. -/
def overtaking : List Action :=
  [.accept 4 ⟨10, 0⟩, .serve ⟨1, fun _ => 0, fun _ => true⟩, .take 0 1 ⟨11, 0⟩,
    .accept 5 ⟨12, 0⟩, .serve ⟨2, fun _ => 0, fun _ => true⟩, .take 1 2 ⟨13, 0⟩,
    .finish 1, .retire 1]

/-- When the second request is retired first, the queue keeps it and loses the
request that still runs. -/
theorem serve_mismatches : ¬∀ config threads actions,
    Ends Matches (· = .disabled) (serve config threads actions) := by
  intro all
  refine not_ends (fun s => decide (Matches s)) (fun s agrees => decide_eq_true agrees) ?_
    (all ⟨.block, 8, fun n => n⟩ [⟨0, 0⟩, ⟨0, 0⟩] overtaking)
  decide +kernel

end OperatingSystems.WebServer
