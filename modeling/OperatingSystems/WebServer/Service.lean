import OperatingSystems.WebServer.Progress
import OperatingSystems.WebServer.Responses

/-!
# The service

Between its sections a worker runs `requestHandle` on its connection and closes it. Here
the threads of the server and what a worker does with a connection are one machine: a
worker comes to the end of a connection when `requestHandle` does, and not before.

Where no thread can make another step by itself, the connections that are still open are
held by workers on whose requests `requestHandle` does not return. If a worker is left
over, and the queue has room, every other connection was closed.
-/

namespace OperatingSystems.WebServer

open Texts Runs

/-- What `requestHandle` meets on a connection: the host, what its two buffers for lines
hold, and the connection itself. -/
structure Visit where
  host : Host
  buf : Text
  hdrs : Text
  socket : Socket

/-- `requestHandle` on a connection. -/
def Visit.handle (visit : Visit) (rounds : Nat) (tstats : Stats) : Except Ended (Sink × Stats) :=
  handleConnection visit.host rounds visit.buf visit.hdrs visit.socket tstats

/-- A request that the server gets over, on a connection on which no call fails. -/
structure Visit.Proper (visit : Visit) : Prop where
  names : NamesLimited visit.host.stat
  reads : .failed ∉ visit.socket.readings
  writes : visit.socket.sink.Writes
  more : visit.socket.sent ≠ []
  survives : Survives visit.host visit.hdrs visit.socket.sent

/-- `requestHandle` does not return on the connection, whatever its loop is given. -/
def Visit.Endless (visit : Visit) : Prop := ∃ tstats, ∀ rounds out, visit.handle rounds tstats ≠ .ok out

/-- It ends the process, or does what is not defined. -/
def Visit.Fatal (visit : Visit) : Prop := ∃ rounds tstats why, visit.handle rounds tstats = .error why ∧ why ≠ .running

/-- The server with `threadStats` of each worker and what was written to the connections
that were handled to their end. -/
structure Service where
  server : Server
  stats : List Stats
  replies : List (Nat × Text)

/-- The service when its threads have been created. -/
def Service.start (threads : List Timeval) : Service where
  server := WebServer.start threads
  stats := threads.mapIdx fun i arrival => ⟨⟨0, 0, 0⟩, i, arrival, arrival⟩
  replies := []

/-- A step of a thread outside of `requestHandle`, or `requestHandle` and `Close` by a
worker, with the rounds that its loop is given. -/
inductive Deed where
  | thread (action : Action)
  | handle (worker rounds : Nat)

/-- A deed that a thread does by itself. -/
def Deed.isOwn : Deed → Bool
  | .thread action => action.isOwn
  | .handle _ _ => true

/-- One step, where the connection of each number is visited as given. A request that ends
the process, or makes it do what is not defined, ends the service. -/
def Service.step (config : Config) (visits : Nat → Visit) (deed : Deed) (s : Service) : Except Stop Service :=
  match deed with
  | .thread (.finish _) => .error .disabled
  | .thread action => do
    let server ← WebServer.step config action s.server
    .ok { s with server := server }
  | .handle i rounds =>
    match s.server.workers[i]?, s.stats[i]? with
    | some ⟨.handling fd, arrival⟩, some tstats =>
      let connection := s.server.kernel.connection fd
      match (visits connection).handle rounds { tstats with arrival := arrival } with
      | .ok (sink, tstats) => do
        let server ← WebServer.step config (.finish i) s.server
        .ok ⟨server, s.stats.set i tstats, s.replies ++ [(connection, sink.written)]⟩
      | .error .running => .error .disabled
      | .error _ => .error .crash
    | _, _ => .error .disabled

/-- Perform the deeds of some schedule on a new service. -/
def runService (config : Config) (visits : Nat → Visit) (threads : List Timeval) (deeds : List Deed) :
    Except Stop Service :=
  execute (Service.step config visits) deeds (Service.start threads)

/-- No thread can do anything by itself. -/
def Service.Settled (config : Config) (visits : Nat → Visit) (s : Service) : Prop :=
  ∀ deed t, deed.isOwn = true → s.step config visits deed ≠ .ok t

/-- The deeds of a schedule are all done by threads themselves. -/
def OwnDeeds (config : Config) (visits : Nat → Visit) (deeds : List Deed) (s : Service) : Prop :=
  Obeys (Service.step config visits) (fun deed _ => deed.isOwn = true) deeds s

/-- What was written to the connections: for each at most one reply, which is what
`requestHandle` wrote, and for each that was closed one where the master closes none. -/
structure Service.Recorded (config : Config) (visits : Nat → Visit) (s : Service) : Prop where
  written : ∀ r ∈ s.replies, ∃ rounds tstats sink after,
    (visits r.1).handle rounds tstats = .ok (sink, after) ∧ r.2 = sink.written
  closed : (s.replies.map Prod.fst).Sublist s.server.kernel.closes
  once : s.server.kernel.closes.Nodup
  block : config.schedalg = .block → s.replies.map Prod.fst = s.server.kernel.closes

/-- Left to themselves the threads come to an end. Then a connection is still with a worker
only if `requestHandle` does not return on it; and if these leave a worker over, and a
place in the queue where the master waits for one, every other accepted connection was
closed, once. -/
structure Service.Drains (config : Config) (visits : Nat → Visit) (s : Service) : Prop where
  bounded : ∀ deeds t, OwnDeeds config visits deeds s → execute (Service.step config visits) deeds s = .ok t →
    deeds.length ≤ s.server.patience
  settles : ∃ deeds t, OwnDeeds config visits deeds s ∧ execute (Service.step config visits) deeds s = .ok t ∧
    t.Settled config visits
  stuck : ∀ deeds t, OwnDeeds config visits deeds s → execute (Service.step config visits) deeds s = .ok t →
    t.Settled config visits → ∀ c ∈ t.server.handled, (visits c).Endless
  closes : ∀ deeds t, OwnDeeds config visits deeds s → execute (Service.step config visits) deeds s = .ok t →
    t.Settled config visits → t.server.handled.length < t.server.workers.length →
    (config.schedalg = .block → t.server.handled.length < config.queueSize) →
    (t.server.kernel.closes ++ t.server.handled).Perm (List.range t.server.kernel.accepted.length)

variable {config : Config} {visits : Nat → Visit} {s t : Service} {deed : Deed} {deeds : List Deed}

/-- What a deed does: a step of the server, or a request that comes to its end. -/
inductive Service.Does (config : Config) (visits : Nat → Visit) (s t : Service) : Deed → Prop
  | thread {action : Action} (other : ∀ i, action ≠ .finish i)
    (acts : WebServer.step config action s.server = .ok t.server) (stats : t.stats = s.stats)
    (replies : t.replies = s.replies) : Does config visits s t (.thread action)
  | handle {i rounds : Nat} {fd : Int} {arrival : Timeval} {tstats after : Stats} {sink : Sink}
    (found : s.server.workers[i]? = some ⟨.handling fd, arrival⟩)
    (handles : (visits (s.server.kernel.connection fd)).handle rounds tstats = .ok (sink, after))
    (acts : WebServer.step config (.finish i) s.server = .ok t.server) (stats : t.stats = s.stats.set i after)
    (replies : t.replies = s.replies ++ [(s.server.kernel.connection fd, sink.written)]) :
    Does config visits s t (.handle i rounds)

/-- On a request that the server gets over `requestHandle` returns, and does not end the
process. -/
theorem Visit.Proper.returns {visit : Visit} (proper : visit.Proper) : ¬visit.Endless ∧ ¬visit.Fatal := by
  constructor
  · rintro ⟨tstats, never⟩
    obtain ⟨rounds, out, handled⟩ := (handleConnection_returns_iff proper.names proper.reads proper.writes
      proper.more visit.buf visit.hdrs tstats).mpr proper.survives
    exact never rounds out handled
  · rintro ⟨rounds, tstats, why, ends, other⟩
    rcases handleConnection_stays proper.names proper.reads proper.writes proper.more proper.survives rounds tstats
      with ⟨out, handled⟩ | goesOn
    · exact absurd (ends.symm.trans handled) (by simp)
    · exact other (Except.error.inj (ends.symm.trans goesOn))

namespace Service

theorem step_does (run : s.step config visits deed = .ok t) : Does config visits s t deed := by
  unfold Service.step at run
  split at run
  · exact absurd run (by simp)
  · next action other =>
    obtain ⟨server, steps, run⟩ := bind_ok run
    obtain rfl := Except.ok.inj run
    exact .thread other steps rfl rfl
  · split at run
    · next found _ =>
      simp only at run
      split at run
      · next handles =>
        obtain ⟨server, steps, run⟩ := bind_ok run
        obtain rfl := Except.ok.inj run
        exact .handle found handles steps rfl rfl
      · exact absurd run (by simp)
      · exact absurd run (by simp)
    · exact absurd run (by simp)

/-- In its effect on the server a deed is a step of a thread. -/
theorem Does.acts (does : Does config visits s t deed) :
    ∃ action : Action, action.isOwn = deed.isOwn ∧ WebServer.step config action s.server = .ok t.server := by
  cases does with
  | thread other acts stats replies => exact ⟨_, rfl, acts⟩
  | handle found handles acts stats replies => exact ⟨_, rfl, acts⟩

/-- The server can go on, and each worker has its `threadStats`. -/
structure Ready (config : Config) (s : Service) : Prop where
  able : Able config s.server
  stats : s.stats.length = s.server.workers.length

theorem start_ready (config : Config) {threads : List Timeval} (some : threads ≠ []) :
    Ready config (start threads) where
  able := start_able config some
  stats := by simp [start, WebServer.start]

/-- Every deed keeps it. -/
theorem Ready.step (ready : Ready config s) (run : s.step config visits deed = .ok t) : Ready config t := by
  have does := step_does run
  obtain ⟨action, -, acts⟩ := does.acts
  obtain ⟨fresh, spares⟩ := step_spares acts
  refine ⟨ready.able.step acts, ?_⟩
  cases does with
  | thread other acts stats replies => rw [stats, ready.stats, spares.workers]
  | handle found handles acts stats replies => rw [stats, List.length_set, ready.stats, spares.workers]

/-- A deed of a thread by itself also takes some of the patience. -/
theorem Ready.own (ready : Ready config s) (own : deed.isOwn = true) (run : s.step config visits deed = .ok t) :
    Ready config t ∧ t.server.patience < s.server.patience := by
  obtain ⟨action, same, acts⟩ := (step_does run).acts
  exact ⟨ready.step run, (ready.able.own (same.trans own) acts).2⟩

/-- A step outside of `requestHandle` is one of the service. -/
theorem step_thread {action : Action} {server : Server} (other : ∀ i, action ≠ .finish i)
    (run : WebServer.step config action s.server = .ok server) :
    s.step config visits (.thread action) = .ok { s with server := server } := by
  unfold Service.step
  split
  · next i same => exact absurd (Deed.thread.inj same) (other i)
  · next same =>
    obtain rfl := Deed.thread.inj same
    simp [run, bind, Except.bind]
  · next same => exact absurd same (by simp)

/-- Where nothing can go on no thread can enter a section. -/
theorem Settled.resting (settled : s.Settled config visits) : Resting config s.server := by
  intro action server own other run
  exact settled (.thread action) _ own (step_thread other run)

/-- The connections that workers handle are those of their descriptors. -/
theorem handled_worker {s : Server} {c : Nat} (member : c ∈ s.handled) :
    ∃ (i : Nat) (fd : Int) (arrival : Timeval), s.workers[i]? = some ⟨.handling fd, arrival⟩ ∧ s.kernel.connection fd = c := by
  obtain ⟨fd, handles, rfl⟩ := List.mem_map.mp member
  obtain ⟨w, inside, busy⟩ := List.mem_filterMap.mp handles
  obtain ⟨i, found⟩ := List.mem_iff_getElem?.mp inside
  rcases w with ⟨place, arrival⟩
  cases place with
  | handling other =>
    obtain rfl : other = fd := Option.some.inj busy
    exact ⟨i, other, arrival, found, rfl⟩
  | _ => exact absurd busy (by simp [Worker.handles])

/-- A worker comes to the end of its connection when `requestHandle` does. -/
theorem Ready.handles (ready : Ready config s) {i : Nat} {fd : Int} {arrival : Timeval}
    (found : s.server.workers[i]? = some ⟨.handling fd, arrival⟩)
    (returns : ¬(visits (s.server.kernel.connection fd)).Endless) :
    ∃ rounds t, s.step config visits (.handle i rounds) = .ok t := by
  obtain ⟨server, finishes, -⟩ := ready.able.finishes found
  have inside : i < s.stats.length := ready.stats ▸ (List.getElem?_eq_some_iff.mp found).1
  simp only [Visit.Endless, not_exists, not_forall, not_not] at returns
  obtain ⟨rounds, out, handled⟩ := returns { s.stats[i] with arrival := arrival }
  refine ⟨rounds, ⟨server, s.stats.set i out.2, s.replies ++ [(s.server.kernel.connection fd, out.1.written)]⟩, ?_⟩
  simp only [Service.step, found, List.getElem?_eq_getElem inside, handled, finishes, bind, Except.bind]

/-- Where nothing can go on a worker is left only with requests that have no end. -/
theorem Ready.stuck (ready : Ready config s) (settled : s.Settled config visits) :
    ∀ c ∈ s.server.handled, (visits c).Endless := by
  intro c member
  obtain ⟨i, fd, arrival, found, rfl⟩ := handled_worker member
  by_contra returns
  obtain ⟨rounds, t, run⟩ := ready.handles found returns
  exact settled (.handle i rounds) t rfl run

/-- Only a request can end the service. -/
theorem Ready.crash (ready : Ready config s) (run : s.step config visits deed = .error .crash) :
    ∃ c, (visits c).Fatal := by
  obtain ⟨held, waiting, handled, sound⟩ := ready.able.sane
  unfold Service.step at run
  split at run
  · exact absurd run (by simp)
  · next action other =>
    rcases bind_error run with crash | ⟨_, -, run⟩
    · exact absurd ((sound.step action).failed crash) (by simp)
    · exact absurd run (by simp)
  · split at run
    · next fd arrival tstats found _ =>
      simp only at run
      split at run
      · next handles =>
        obtain ⟨server, steps, -⟩ := ready.able.finishes found
        simp [steps, bind, Except.bind] at run
      · exact absurd run (by simp)
      · next why other handles => exact ⟨s.server.kernel.connection fd, _, _, why, handles, other⟩
    · exact absurd run (by simp)

theorem start_recorded {threads : List Timeval} : (start threads).Recorded config visits where
  written := by simp [start]
  closed := by simp [start]
  once := by simp [start, WebServer.start]
  block := fun _ => rfl

/-- A worker that closes a connection records what was written to it. -/
theorem Recorded.step (recorded : s.Recorded config visits) (ready : Ready config s)
    (run : s.step config visits deed = .ok t) : t.Recorded config visits := by
  obtain ⟨held, waiting, handled, sound⟩ := (ready.step run).able.sane
  have once : t.server.kernel.closes.Nodup :=
    ((sound.conserved.once.nodup_iff.mpr List.nodup_range).sublist (List.sublist_append_right _ _))
  cases step_does run with
  | thread other acts stats replies =>
    obtain ⟨lost, closes, none⟩ := ready.able.closes other acts
    refine ⟨replies ▸ recorded.written, ?_, once, fun policy => ?_⟩
    · rw [replies, closes]
      exact recorded.closed.trans (List.sublist_append_left _ _)
    · rw [replies, closes, none policy, List.append_nil]
      exact recorded.block policy
  | @handle i rounds fd arrival tstats after sink found handles acts stats replies =>
    obtain ⟨server, finishes, closes⟩ := ready.able.finishes found
    obtain rfl := Except.ok.inj (acts.symm.trans finishes)
    refine ⟨fun r member => ?_, ?_, once, fun policy => ?_⟩
    · rw [replies] at member
      rcases List.mem_append.mp member with before | last
      · exact recorded.written r before
      · obtain rfl := List.mem_singleton.mp last
        exact ⟨rounds, tstats, sink, after, handles, rfl⟩
    · rw [replies, closes, List.map_append]
      exact recorded.closed.append_right _
    · rw [replies, closes, List.map_append, recorded.block policy]
      rfl

/-- The threads of a service that can go on come to an end by themselves. -/
theorem Ready.drains (ready : Ready config s) : s.Drains config visits := by
  have lowers : ∀ deed (s t : Service), Ready config s → deed.isOwn = true → s.step config visits deed = .ok t →
      Ready config t ∧ t.server.patience < s.server.patience := fun deed s t ready own run => ready.own own run
  have ends := fun deeds t (own : OwnDeeds config visits deeds s)
    (reached : execute (Service.step config visits) deeds s = .ok t) =>
    execute_bounded (fun s => s.server.patience) lowers ready own reached
  refine ⟨fun deeds t own reached => ?_, ?_, fun deeds t own reached settled => ?_,
    fun deeds t own reached settled spare room => ?_⟩
  · have bound := (ends deeds t own reached).2
    omega
  · obtain ⟨deeds, t, own, reached, -, settled⟩ := execute_settles (fun s => s.server.patience) lowers ready
    exact ⟨deeds, t, own, reached, fun deed u own => settled deed u own⟩
  · exact (ends deeds t own reached).1.stuck settled
  · exact (ends deeds t own reached).1.able.closed settled.resting spare room

end Service

/-- The server drains: in every state that some schedule reaches its threads come by
themselves to an end, after boundedly many steps. Nothing but a request ends it, and none
that the server gets over ends it or has no end itself. -/
theorem service_drains (config : Config) (visits : Nat → Visit) (threads : List Timeval) (some : threads ≠ [])
    (deeds : List Deed) :
    Ends (fun s => s.Recorded config visits ∧ s.Drains config visits)
        (fun stop => stop = .crash → ∃ c, (visits c).Fatal) (runService config visits threads deeds) ∧
      ∀ c, (visits c).Proper → ¬(visits c).Endless ∧ ¬(visits c).Fatal := by
  have kept : Ends (fun s => s.Recorded config visits ∧ Service.Ready config s)
      (fun stop => stop = .crash → ∃ c, (visits c).Fatal) (runService config visits threads deeds) := by
    refine execute_ends (fun deed s holds _ => ?_) ⟨Service.start_recorded, Service.start_ready config some⟩
      (Obeys.always _ _ _)
    cases result : s.step config visits deed with
    | ok t => exact ⟨holds.1.step holds.2 result, holds.2.step result⟩
    | error stop =>
      rintro rfl
      exact holds.2.crash result
  exact ⟨kept.mono fun s holds => ⟨holds.1, holds.2.drains⟩, fun c proper => proper.returns⟩

/-- Every connection asks for a page that there is not. -/
def missing (_ : Nat) : Visit where
  host := emptyPage
  buf := []
  hdrs := []
  socket := ⟨"GET x.html HTTP/1.0\r\n\r\n".toList, [], ⟨[], [], false⟩⟩

/-- A worker sleeps, a first connection fills the only place of the queue, and the master
waits with a second one. -/
theorem service_drains_sample :
    Ends (fun s => s.Recorded ⟨.block, 1, fun n => n⟩ missing ∧ s.Drains ⟨.block, 1, fun n => n⟩ missing)
        (fun stop => stop = .crash → ∃ c, (missing c).Fatal)
        (runService ⟨.block, 1, fun n => n⟩ missing [⟨0, 0⟩]
          [.thread (.take 0 1 ⟨0, 0⟩), .thread (.accept 4 ⟨10, 0⟩),
            .thread (.serve ⟨1, fun _ => 0, fun _ => true⟩), .thread (.accept 5 ⟨11, 0⟩),
            .thread (.serve ⟨2, fun _ => 0, fun _ => true⟩)]) ∧
      ∀ c, (missing c).Proper → ¬(missing c).Endless ∧ ¬(missing c).Fatal :=
  service_drains _ missing _ (by simp) _

end OperatingSystems.WebServer
