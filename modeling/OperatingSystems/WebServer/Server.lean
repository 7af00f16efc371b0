import OperatingSystems.WebServer.Queue

/-!
# The threads of `server.c`

The master accepts connections and hands them to the workers through the queue
of waiting requests; both use one mutex and one condition variable. A step is
one of the sections the mutex protects, from the lock to the unlock or to the
wait, or an action outside of them: accepting a connection, closing it after it
was handled, a spurious wake-up. What a worker does with a connection, and whether
it comes to an end with it, is not part of a step here.

What the system decides is part of the action: the descriptor of a connection
and its arrival time, the addresses that `malloc` returns, the results of
`rand` and the workers a signal wakes. A descriptor is free again once it was
closed, so the connections are numbered in the order they are accepted and the
kernel's table says which of them a descriptor refers to.
-/

namespace OperatingSystems.WebServer

/-- `OverloadType`. -/
inductive OverloadType where
  | block | dropTail | dropRand | dropHead
deriving DecidableEq, Repr

/-- The arguments of the server, and the expression `ceil(n * 0.3f)`. -/
structure Config where
  schedalg : OverloadType
  queueSize : Int
  share : Int → Int

/-- The kernel's view of the connections. -/
structure Kernel where
  accepted : List Entry
  table : Int → Option Nat
  closes : List Nat

/-- Where the master is, with the connection it holds. -/
inductive Master where
  | accepting
  | locking (connfd : Int) (arrival : Timeval)
  | asleep (connfd : Int) (arrival : Timeval)
  | woken (connfd : Int) (arrival : Timeval)
deriving DecidableEq, Repr

/-- Where a worker is: before its first section, asleep in it, woken, handling
a connection, or before its second section. -/
inductive Place where
  | locking
  | asleep
  | woken
  | handling (fd : Int)
  | retiring (fd : Int)
deriving DecidableEq, Repr

/-- A worker, with `tstats->arrival`. -/
structure Worker where
  place : Place
  arrival : Timeval
deriving DecidableEq, Repr

/-- The server. The last two fields record the connections that were queued,
and those that workers took with the arrival time they found. -/
structure Server where
  waiting : Queue
  running : Queue
  master : Master
  workers : List Worker
  kernel : Kernel
  queued : List Nat
  dispatched : List (Nat × Timeval)

/-- The server when its threads have been created. -/
def start (threads : List Timeval) : Server where
  waiting := queueCreate
  running := queueCreate
  master := .accepting
  workers := threads.map fun arrival => ⟨.locking, arrival⟩
  kernel := ⟨[], fun _ => none, []⟩
  queued := []
  dispatched := []

/-- The connection a descriptor refers to. -/
def Kernel.connection (kernel : Kernel) (fd : Int) : Nat :=
  (kernel.table fd).getD kernel.accepted.length

/-- `Close`: the wrapper ends the program when the descriptor is not open. -/
def Kernel.close (kernel : Kernel) (fd : Int) : Option Kernel := do
  let connection ← kernel.table fd
  some { kernel with
    table := fun other => if other = fd then none else kernel.table other
    closes := kernel.closes ++ [connection] }

/-- `Close` on several descriptors, one after another. -/
def Kernel.closeAll : Kernel → List Int → Option Kernel
  | kernel, [] => some kernel
  | kernel, fd :: rest => do
    let next ← kernel.close fd
    next.closeAll rest

def Worker.wake (worker : Worker) : Worker :=
  if worker.place = .asleep then { worker with place := .woken } else worker

def Master.wake : Master → Master
  | .asleep connfd arrival => .woken connfd arrival
  | other => other

/-- `pthread_cond_signal` by the master, which wakes these workers. -/
def signal (wakes : Nat → Bool) (s : Server) : Server :=
  { s with workers := s.workers.mapIdx fun i worker => if wakes i then worker.wake else worker }

/-- `pthread_cond_broadcast`. -/
def broadcast (s : Server) : Server :=
  { s with workers := s.workers.map Worker.wake, master := s.master.wake }

/-- A signal wakes a sleeper if there is one. -/
def Signals (wakes : Nat → Bool) (s : Server) : Prop :=
  (∃ i, i < s.workers.length ∧ (s.workers[i]?.map Worker.place) = some .asleep) →
    ∃ i, i < s.workers.length ∧ (s.workers[i]?.map Worker.place) = some .asleep ∧ wakes i = true

instance (wakes : Nat → Bool) (s : Server) : Decidable (Signals wakes s) :=
  inferInstanceAs (Decidable (_ → _))

/-- `queueSize(waiting_requests) + queueSize(running_requests)`. -/
def occupied (s : Server) : Int := queueSize s.waiting + queueSize s.running

/-- Why a step is not made: the thread or the system does not make it now, or
the program follows a null pointer or closes what is not open. -/
inductive Stop where
  | disabled
  | crash
deriving DecidableEq, Repr

/-- A function of the program without a result has crashed. -/
def orCrash {α : Type} : Option α → Except Stop α
  | some result => .ok result
  | none => .error .crash

/-- What the system decides in a section of the master. -/
structure Choice where
  address : Nat
  rand : Nat → Nat
  wakes : Nat → Bool

/-- `queuePush(waiting_requests, connfd, arrival)` and the signal. The address
that `malloc` returns is one that is not in use. -/
def enqueue (choice : Choice) (connfd : Int) (arrival : Timeval) (s : Server) : Except Stop Server :=
  if choice.address ≠ 0 ∧ s.waiting.nodes choice.address = none ∧ Signals choice.wakes s then do
    let (_, waiting) ← orCrash (queuePush s.waiting connfd arrival choice.address)
    .ok (signal choice.wakes { s with
      waiting := waiting
      queued := s.queued ++ [s.kernel.connection connfd] })
  else .error .disabled

/-- `Close` by the master. -/
def refuse (fd : Int) (s : Server) : Except Stop Server := do
  let kernel ← orCrash (s.kernel.close fd)
  .ok { s with kernel := kernel }

/-- The discarding part of `DROP_RAND`. -/
def discard (config : Config) (choice : Choice) (s : Server) : Except Stop Server := do
  let num := config.share (queueSize s.waiting)
  let (closed, waiting) ← orCrash (queueDiscardX choice.rand s.waiting num)
  let kernel ← orCrash (s.kernel.closeAll closed)
  .ok { s with waiting := waiting, kernel := kernel }

/-- The `switch` of the master. The block policy may go to sleep instead. -/
def overload (config : Config) (choice : Choice) (connfd : Int) (arrival : Timeval) (s : Server) :
    Except Stop Server :=
  match config.schedalg with
  | .block =>
    if config.queueSize ≤ occupied s then .ok { s with master := .asleep connfd arrival }
    else enqueue choice connfd arrival { s with master := .accepting }
  | .dropTail =>
    if config.queueSize ≤ occupied s then refuse connfd { s with master := .accepting }
    else enqueue choice connfd arrival { s with master := .accepting }
  | .dropRand => do
    let s ← if config.queueSize ≤ occupied s then discard config choice s else .ok s
    if occupied s < config.queueSize then enqueue choice connfd arrival { s with master := .accepting }
    else refuse connfd { s with master := .accepting }
  | .dropHead =>
    if config.queueSize ≤ occupied s then do
      let (head, _, waiting) ← orCrash (queuePop s.waiting ⟨0, 0⟩)
      if head ≠ -1 then do
        let s ← refuse head { s with waiting := waiting, master := .accepting }
        enqueue choice connfd arrival s
      else refuse connfd { s with waiting := waiting, master := .accepting }
    else enqueue choice connfd arrival { s with master := .accepting }

/-- The first section of a worker. -/
def take (i : Nat) (address : Nat) (temp : Timeval) (worker : Worker) (s : Server) :
    Except Stop Server :=
  if queueSize s.waiting = 0 then
    .ok { s with workers := s.workers.set i { worker with place := .asleep } }
  else if address ≠ 0 ∧ s.running.nodes address = none then do
    let (fd, arrival, waiting) ← orCrash (queuePop s.waiting worker.arrival)
    let (_, running) ← orCrash (queuePush s.running fd temp address)
    .ok (broadcast { s with
      waiting := waiting
      running := running
      workers := s.workers.set i ⟨.handling fd, arrival⟩
      dispatched := s.dispatched ++ [(s.kernel.connection fd, arrival)] })
  else .error .disabled

/-- `Close(fd)` by a worker that has handled a connection. -/
def finish (i : Nat) (fd : Int) (arrival : Timeval) (s : Server) : Except Stop Server := do
  let kernel ← orCrash (s.kernel.close fd)
  .ok { s with kernel := kernel, workers := s.workers.set i ⟨.retiring fd, arrival⟩ }

/-- The second section of a worker. -/
def retire (i : Nat) (arrival : Timeval) (s : Server) : Except Stop Server := do
  let (_, _, running) ← orCrash (queuePop s.running ⟨0, 0⟩)
  .ok (broadcast { s with
    running := running
    workers := s.workers.set i ⟨.locking, arrival⟩ })

/-- The steps of the threads. -/
inductive Action where
  | accept (connfd : Int) (arrival : Timeval)
  | serve (choice : Choice)
  | take (worker address : Nat) (temp : Timeval)
  | finish (worker : Nat)
  | retire (worker : Nat)
  | wakeWorker (worker : Nat)
  | wakeMaster

/-- The connection the master carries into its section. -/
def Master.entering : Master → Option Entry
  | .locking connfd arrival => some (connfd, arrival)
  | .woken connfd arrival => some (connfd, arrival)
  | _ => none

/-- One step. A new descriptor is one that is not in use. -/
def step (config : Config) (action : Action) (s : Server) : Except Stop Server :=
  match action with
  | .accept connfd arrival =>
    if s.master = .accepting ∧ 0 ≤ connfd ∧ s.kernel.table connfd = none then
      .ok { s with
        master := .locking connfd arrival
        kernel := { s.kernel with
          accepted := s.kernel.accepted ++ [(connfd, arrival)]
          table := fun fd =>
            if fd = connfd then some s.kernel.accepted.length else s.kernel.table fd } }
    else .error .disabled
  | .serve choice =>
    match s.master.entering with
    | some (connfd, arrival) => overload config choice connfd arrival s
    | none => .error .disabled
  | .take i address temp =>
    match s.workers[i]? with
    | some ⟨.locking, arrival⟩ => take i address temp ⟨.locking, arrival⟩ s
    | some ⟨.woken, arrival⟩ => take i address temp ⟨.woken, arrival⟩ s
    | _ => .error .disabled
  | .finish i =>
    match s.workers[i]? with
    | some ⟨.handling fd, arrival⟩ => finish i fd arrival s
    | _ => .error .disabled
  | .retire i =>
    match s.workers[i]? with
    | some ⟨.retiring _, arrival⟩ => retire i arrival s
    | _ => .error .disabled
  | .wakeWorker i =>
    match s.workers[i]? with
    | some worker => .ok { s with workers := s.workers.set i worker.wake }
    | none => .error .disabled
  | .wakeMaster => .ok { s with master := s.master.wake }

end OperatingSystems.WebServer
