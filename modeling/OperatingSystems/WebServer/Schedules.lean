import OperatingSystems.WebServer.Invariant

/-!
# What holds under every schedule

Whatever the policy, the number of workers and the order of the sections: no
connection is lost or closed twice, no worker sleeps through a request, the
queues stay within the bound, and requests are taken in the order they came.
-/

namespace OperatingSystems.WebServer

open Runs

/-- The connection held by the master. -/
def Server.held (s : Server) : List Nat := s.master.holds.map fun e => s.kernel.connection e.1

/-- The waiting connections, in their order. -/
def Server.waits (s : Server) : List Nat := (contents s.waiting).map fun e => s.kernel.connection e.1

/-- The connections handled by workers. -/
def Server.handled (s : Server) : List Nat :=
  (s.workers.filterMap Worker.handles).map s.kernel.connection

/-- The connections that workers took. -/
def Server.taken (s : Server) : List Nat := s.dispatched.map Prod.fst

/-- Every accepted connection is in exactly one place, and was taken at most
once. -/
structure Conserved (s : Server) : Prop where
  once : (s.held ++ s.waits ++ s.handled ++ s.kernel.closes).Perm
    (List.range s.kernel.accepted.length)
  takenOnce : s.taken.Nodup

/-- No thread sleeps although it could go on. -/
structure Awake (config : Config) (s : Server) : Prop where
  workers : (∃ w ∈ s.workers, w.place = .asleep) →
    queueSize s.waiting ≤ s.workers.countP Worker.ready
  master : ∀ connfd arrival, s.master = .asleep connfd arrival → config.schedalg = .block ∧
    config.queueSize ≤ queueSize s.waiting + queueSize s.running

/-- The sizes are those of the queues, within the bound, and every request that
runs is with a worker. -/
structure Accounted (config : Config) (s : Server) : Prop where
  waiting : Holds s.waiting (contents s.waiting)
  running : Holds s.running (contents s.running)
  bound : queueSize s.waiting + queueSize s.running ≤ max config.queueSize 0
  busy : queueSize s.running = s.workers.countP Worker.busy

/-- The section of the master closes only connections it may drop: the oldest
waiting one under `dh`, and the new one, under `dh` and `random`, when none
waits. -/
def DropsFairly (config : Config) (s t : Server) : Prop :=
  ∃ lost, t.kernel.closes = s.kernel.closes ++ lost ∧
    (config.schedalg = .dropHead → ∀ c ∈ lost, c ∈ s.waits → s.waits.head? = some c) ∧
    (config.schedalg = .dropHead ∨ config.schedalg = .dropRand →
      ∀ c ∈ lost, c ∉ s.waits → s.waits = [])

/-- Requests are taken in the order they came, with the time they came, and
dropped as the policy says. -/
structure Disciplined (config : Config) (s : Server) : Prop where
  order : s.taken.Sublist (List.range s.kernel.accepted.length)
  arrivals : ∀ d ∈ s.dispatched, ∃ fd, s.kernel.accepted[d.1]? = some (fd, d.2)
  block : config.schedalg = .block → s.kernel.closes ⊆ s.taken ∧
    s.taken <+: List.range s.kernel.accepted.length
  dropTail : config.schedalg = .dropTail → ∀ c ∈ s.queued, c ∈ s.kernel.closes → c ∈ s.taken
  drops : ∀ choice t, step config (.serve choice) s = .ok t → DropsFairly config s t

variable {config : Config} {s t : Server} {held waiting handled : List Conn}

/-- The sizes are `int`s when the size that the queues may have together is one. -/
theorem Accounted.sizes_lt (accounted : Accounted config s) (most : config.queueSize < 2 ^ 31) :
    (0 ≤ queueSize s.waiting ∧ queueSize s.waiting < 2 ^ 31) ∧
      0 ≤ queueSize s.running ∧ queueSize s.running < 2 ^ 31 := by
  have waiting := accounted.waiting.length
  have running := accounted.running.length
  have bound := accounted.bound
  omega

namespace Sound

/-- The connections in the three places are those of the invariant. -/
theorem places (sound : Sound config s held waiting handled) :
    s.held = held.map Conn.id ∧ s.waits = waiting.map Conn.id ∧ s.handled = handled.map Conn.id := by
  have known : ∀ conns, conns ⊆ held ++ waiting ++ handled →
      conns.map (fun c => s.kernel.connection c.fd) = conns.map Conn.id := fun conns subset =>
    List.map_congr_left fun c member => sound.owns.connection (subset member)
  refine ⟨?_, ?_, ?_⟩
  · rw [Server.held, sound.master, List.map_map]
    exact known held fun c member => by simp [member]
  · rw [Server.waits, sound.queue.contents, List.map_map]
    exact known waiting fun c member => by simp [member]
  · rw [Server.handled, sound.handling, List.map_map]
    exact known handled fun c member => by simp [member]

theorem conserved (sound : Sound config s held waiting handled) : Conserved s := by
  obtain ⟨isHeld, isWaiting, isHandled⟩ := sound.places
  constructor
  · rw [isHeld, isWaiting, isHandled, ← List.map_append, ← List.map_append]
    exact sound.owns.once
  · have order := sound.ordered
    rw [List.append_assoc] at order
    exact (List.pairwise_append.mp order).1.imp Nat.ne_of_lt

theorem awake (sound : Sound config s held waiting handled) : Awake config s where
  workers := by
    rintro ⟨w, member, asleep⟩
    have some : 0 < s.workers.countP Worker.sleeps :=
      List.countP_pos_iff.mpr ⟨w, member, by simp [Worker.sleeps, asleep]⟩
    rw [sound.size]
    exact_mod_cast sound.sleepers some
  master := sound.stuck

theorem accounted (sound : Sound config s held waiting handled) : Accounted config s := by
  obtain ⟨entries, holds, count⟩ := sound.running
  refine ⟨?_, ?_, sound.capacity, ?_⟩
  · rw [sound.queue.contents]
    exact sound.queue
  · rw [holds.contents]
    exact holds
  · rw [holds.length, count]

/-- What the master drops. -/
theorem drops_fairly (sound : Sound config s held waiting handled)
    (share : ∀ n, 1 ≤ n → 1 ≤ config.share n) {choice : Choice}
    (run : WebServer.step config (.serve choice) s = .ok t) : DropsFairly config s t := by
  obtain ⟨_, isWaiting, _⟩ := sound.places
  simp only [WebServer.step] at run
  cases enters : s.master.entering with
  | none =>
    rw [enters] at run
    exact absurd run (by simp)
  | some entry =>
    obtain ⟨c, rfl, rfl⟩ := sound.entering enters
    rw [enters] at run
    simp only [Conn.entry] at run
    rcases overload_outcome config choice sound.owns sound.queue with disabled |
      ⟨policy, full, slept⟩ | ⟨removed, kept, admitted, u, decides, decided⟩
    · rw [disabled] at run
      exact absurd run (by simp)
    · rw [slept] at run
      obtain rfl := Except.ok.inj run
      exact ⟨[], by simp, by simp, by simp⟩
    · rw [decides] at run
      obtain rfl := Except.ok.inj run
      replace decided : Decided config s u c waiting removed kept admitted := decided
      have newcomer : c.id ∉ waiting.map Conn.id := by
        have ids := (List.nodup_append.mp sound.owns.nodup).1
        rw [List.append_assoc, List.map_append, List.nodup_append] at ids
        intro listed
        exact ids.2.2 c.id (by simp) c.id (by simp [listed]) rfl
      have waited : ∀ d ∈ removed, d.id ∈ waiting.map Conn.id := fun d member =>
        List.mem_map_of_mem (decided.parts.mem_iff.mpr (by simp [member]))
      refine ⟨(removed ++ if admitted then [] else [c]).map Conn.id, by rw [decided.kernel]; rfl, ?_, ?_⟩
      · intro policy id lost waits
        obtain ⟨whole, few, _⟩ := decided.dropHead policy
        obtain ⟨d, member, rfl⟩ := List.mem_map.mp lost
        rw [isWaiting] at waits ⊢
        rcases List.mem_append.mp member with inRemoved | isNew
        · obtain ⟨first, none⟩ := List.length_eq_one_iff.mp
            (Nat.le_antisymm few (List.length_pos_of_mem inRemoved))
          rw [none] at inRemoved whole
          obtain rfl := List.mem_singleton.mp inRemoved
          rw [whole]
          rfl
        · obtain rfl : d = c := by
            cases admitted <;> simp_all
          exact absurd waits newcomer
      · intro policy id lost waits
        obtain ⟨d, member, rfl⟩ := List.mem_map.mp lost
        rw [isWaiting] at waits ⊢
        rcases List.mem_append.mp member with inRemoved | isNew
        · exact absurd (waited d inRemoved) waits
        have refused : admitted = false := by
          cases admitted <;> simp_all
        rw [List.map_eq_nil_iff]
        rcases policy with head | random
        · exact (decided.dropHead head).2.2 refused
        · obtain ⟨still, count⟩ := decided.dropRand random refused
          by_contra some
          have positive := List.length_pos_of_ne_nil some
          have bound := sound.capacity
          have size := sound.size
          obtain ⟨entries, holds, _⟩ := sound.running
          have running := holds.length
          have parts := decided.parts.length_eq
          rw [List.length_append] at parts
          unfold occupied at bound count
          have least := share waiting.length (by omega)
          omega

theorem disciplined (sound : Sound config s held waiting handled)
    (share : ∀ n, 1 ≤ n → 1 ≤ config.share n) : Disciplined config s := by
  have below : ∀ id ∈ s.taken, id < s.kernel.accepted.length := fun id member =>
    sound.below (List.mem_append_left _ (List.mem_append_left _ member))
  have increasing : s.taken.Pairwise (· < ·) := by
    have order := sound.ordered
    rw [List.append_assoc] at order
    exact (List.pairwise_append.mp order).1
  -- What is closed is no longer held, waiting or handled.
  have gone : ∀ c ∈ s.kernel.closes, c ∉ waiting.map Conn.id ++ held.map Conn.id := by
    intro c closed listed
    have apart := (List.nodup_append.mp sound.owns.nodup).2.2
    refine apart c ?_ c closed rfl
    rcases List.mem_append.mp listed with inQueue | inHeld
    · simp [inQueue]
    · simp [inHeld]
  refine ⟨?_, sound.arrivals, fun policy => ⟨fun c closed => ?_, ?_⟩, fun policy c queued closed => ?_,
    fun choice t run => sound.drops_fairly share run⟩
  · refine List.sublist_of_subperm_of_pairwise (List.subperm_of_subset (increasing.imp Nat.ne_of_lt)
      fun id member => List.mem_range.mpr (below id member)) increasing List.pairwise_lt_range
  · have accepted : c ∈ List.range s.kernel.accepted.length :=
      sound.owns.once.mem_iff.mp (by simp [closed])
    rw [← sound.prompt policy, List.append_assoc] at accepted
    exact (List.mem_append.mp accepted).resolve_right (gone c closed)
  · rw [← sound.prompt policy, List.append_assoc]
    exact List.prefix_append _ _
  · rw [sound.lasting (Or.inr policy)] at queued
    exact (List.mem_append.mp queued).resolve_right fun waits =>
      gone c closed (List.mem_append_left _ waits)

end Sound

/-- A property of sound states holds under every schedule. -/
theorem serve_ends {good : Server → Prop} (config : Config) (threads : List Timeval)
    (actions : List Action)
    (implies : ∀ s held waiting handled, Sound config s held waiting handled → good s) :
    Ends good (· = .disabled) (serve config threads actions) := by
  have ends := serve_sound config threads actions
  cases result : serve config threads actions with
  | ok s =>
    obtain ⟨held, waiting, handled, sound⟩ := ends.reached result
    exact implies s held waiting handled sound
  | error stop => exact ends.failed result

/-- No schedule loses a connection, closes one twice or crashes. -/
theorem serve_conserves (config : Config) (threads : List Timeval) (actions : List Action) :
    Ends Conserved (· = .disabled) (serve config threads actions) :=
  serve_ends config threads actions fun _ _ _ _ sound => sound.conserved

/-- No schedule loses a wake-up. -/
theorem serve_awake (config : Config) (threads : List Timeval) (actions : List Action) :
    Ends (Awake config) (· = .disabled) (serve config threads actions) :=
  serve_ends config threads actions fun _ _ _ _ sound => sound.awake

/-- No schedule exceeds the bound. -/
theorem serve_accounted (config : Config) (threads : List Timeval) (actions : List Action) :
    Ends (Accounted config) (· = .disabled) (serve config threads actions) :=
  serve_ends config threads actions fun _ _ _ _ sound => sound.accounted

/-- Every schedule takes and drops requests as the policy says. -/
theorem serve_disciplined (config : Config) (share : ∀ n, 1 ≤ n → 1 ≤ config.share n)
    (threads : List Timeval) (actions : List Action) :
    Ends (Disciplined config) (· = .disabled) (serve config threads actions) :=
  serve_ends config threads actions fun _ _ _ _ sound => sound.disciplined share

/-- A server of two places that discards a third of the waiting requests, rounded up. -/
def discarding : Config := ⟨.dropRand, 2, fun n => (3 * n + 9) / 10⟩

/-- Three connections, of which one is discarded. -/
theorem serve_disciplined_sample : Ends (Disciplined discarding) (· = .disabled)
    (serve discarding [⟨0, 0⟩]
      [.accept 4 ⟨10, 0⟩, .serve ⟨1, fun _ => 0, fun _ => true⟩,
        .accept 5 ⟨11, 0⟩, .serve ⟨2, fun _ => 0, fun _ => true⟩,
        .accept 6 ⟨12, 0⟩, .serve ⟨3, fun _ => 1, fun _ => true⟩, .take 0 1 ⟨0, 0⟩, .finish 0]) :=
  serve_disciplined discarding (fun n positive => by simp only [discarding]; omega) _ _

end OperatingSystems.WebServer
