import OperatingSystems.Malloc3.Calls
import OperatingSystems.Runs

/-!
# A client of the allocator

A client holds pointers, each with the size it last asked for, and calls the
allocator or writes to what it holds. The system is the process together with
this list. A run is a list of calls, performed in a process whose break only
the allocator moves; the answers of the operating system are part of the
process, so a statement about every start is one about every pattern of
failures.
-/

namespace OperatingSystems.Malloc3

open Bytes Process MallocMetadata Tiling Payloads Runs

/-- The process, and what the client holds: each pointer with the size that reached
`smalloc` or `srealloc` last. For `scalloc` that is the product in 64 bits, which may be
less than what the client asked for (`ask`). -/
structure System where
  state : State
  live : List (Nat × Nat)

/-- What a client may do. -/
inductive Call where
  | smalloc (size : Nat)
  | scalloc (num size : Nat)
  | sfree (p : Nat)
  | srealloc (p size : Nat)
  | store (a : Nat) (byte : UInt8)

/-- The program of a call; calls without a result return null. -/
def Call.program : Call → Alloc Nat
  | .smalloc size => Malloc3.smalloc size
  | .scalloc num size => Malloc3.scalloc num size
  | .sfree p => do Malloc3.sfree p; pure 0
  | .srealloc p size => Malloc3.srealloc p size
  | .store a byte => do storeCells a 1 byte.toNat; pure 0

/-- What the client holds once the call has returned `p`. A resize that returns
null leaves it what it had. -/
def Call.holding (p : Nat) (live : List (Nat × Nat)) : Call → List (Nat × Nat)
  | .smalloc size => if p = 0 then live else (p, size) :: live
  | .scalloc num size => if p = 0 then live else (p, wrap (num * size)) :: live
  | .sfree q => forget q live
  | .srealloc q size => if p = 0 then live else (p, size) :: forget q live
  | .store _ _ => live

/-- Perform one call. -/
def perform (call : Call) (sys : System) : Except Fault System :=
  match call.program sys.state with
  | .ok (p, state) => .ok ⟨state, call.holding p sys.live⟩
  | .error fault => .error fault

/-- The process when the allocator's static variables have been initialised.
The heap starts above the first page, which no process has, and in the half of
the address space that processes have. -/
structure Launch where
  brk : Nat
  contents : Memory
  replies : List Reply
  proper : 4096 ≤ brk
  small : brk < 2 ^ 63

/-- Nothing is allocated yet. -/
def Launch.system (launch : Launch) : System where
  state :=
    { bytes := launch.contents
      heapStart := launch.brk
      brk := launch.brk
      maps := []
      replies := launch.replies
      strayUnmaps := []
      globals :=
        { statistics := ⟨0, 0, 0, 0, 0⟩
          sbrkStart := launch.brk
          blockList := ⟨0, 0, 0⟩ } }
  live := []

/-- A run of the client from the launch on. -/
def run (launch : Launch) (calls : List Call) : Except Fault System :=
  execute perform calls launch.system

/-- Every call of the run satisfies the condition in the state it meets. -/
def During (launch : Launch) (condition : Call → System → Prop) (calls : List Call) : Prop :=
  Obeys perform condition calls launch.system

instance (launch : Launch) (condition : Call → System → Prop)
    [∀ call sys, Decidable (condition call sys)] (calls : List Call) :
    Decidable (During launch condition calls) :=
  inferInstanceAs (Decidable (Obeys _ _ _ _))

/-- The client passes null or a pointer it holds, and writes only to what it
asked for. -/
def Legal (call : Call) (sys : System) : Prop :=
  match call with
  | .smalloc _ => True
  | .scalloc _ _ => True
  | .sfree p => p = 0 ∨ p ∈ sys.live.map Prod.fst
  | .srealloc p _ => p = 0 ∨ p ∈ sys.live.map Prod.fst
  | .store a _ => ∃ e ∈ sys.live, e.1 ≤ a ∧ a < e.1 + e.2

/-- A resize asks no more of a block of the heap than it has. -/
def Shrinks (call : Call) (sys : System) : Prop :=
  match call with
  | .srealloc p n => p = 0 ∨ (OnHeap sys.state p ∧ n ≤ blockSize sys.state p)
  | _ => True

/-- Every block of the heap that the call hands to `sfree` is smaller than the
threshold. -/
def SmallBlocks (call : Call) (sys : System) : Prop :=
  match call with
  | .smalloc n => SmallRequest sys.state n
  | .scalloc num n => SmallRequest sys.state (wrap (num * n))
  | .sfree p => OnHeap sys.state p → blockSize sys.state p < MMAP_THRESHOLD
  | .srealloc p n =>
    if p = 0 then SmallRequest sys.state n else SmallTrim (blockSize sys.state p) n
  | .store _ _ => True

instance (call : Call) (sys : System) : Decidable (Legal call sys) := by
  cases call <;> unfold Legal <;> exact inferInstance

instance (call : Call) (sys : System) : Decidable (Shrinks call sys) := by
  cases call <;> unfold Shrinks <;> exact inferInstance

instance (call : Call) (sys : System) : Decidable (SmallBlocks call sys) := by
  cases call <;> unfold SmallBlocks <;> exact inferInstance

/-- The state is sound and the client holds what was handed out. -/
structure Held (sys : System) (blocks : List Block) : Prop extends Sound sys.state blocks where
  backed : Backed sys.live (owned blocks sys.state.maps)

variable {live before after rest : List (Nat × Nat)} {p q n capacity : Nat}
  {s t : State} {sys next : System} {old new blocks : List Block} {call : Call}

/-- A pointer of the client is that of a block in use or of a mapping. -/
theorem Held.pointer (held : Held sys old) (member : p ∈ sys.live.map Prod.fst) :
    (∃ b ∈ old, b.free = false ∧ p = b.address + 32) ∨
      ∃ region ∈ sys.state.maps, p = region.1 + 32 := by
  obtain ⟨o, listed, rfl⟩ := List.mem_map.mp (held.backed.pointers.mem_iff.mp member)
  rcases mem_owned.mp listed with ⟨b, known, live, rfl⟩ | ⟨region, known, rfl⟩
  · exact Or.inl ⟨b, known, live, rfl⟩
  · exact Or.inr ⟨region, known, rfl⟩

/-- The cells a client writes itself. -/
def Call.written : Call → Set Nat
  | .store a _ => {a}
  | _ => ∅

/-- The bytes asked for under a pointer that stays live are those before the
call, apart from a write of the client itself. -/
def Untouched (call : Call) (sys next : System) : Prop :=
  ∀ e ∈ sys.live, ∀ f ∈ next.live, e.1 = f.1 → ∀ x, e.1 ≤ x → x < e.1 + e.2 → x < f.1 + f.2 →
    x ∉ call.written → next.state.bytes x = sys.state.bytes x

/-- One call: what is held stays backed, and what the client keeps is not
touched. -/
structure Advances (call : Call) (sys : System) (next : System) (new : List Block) : Prop where
  held : Held next new
  untouched : Untouched call sys next

/-- Payloads that a call takes are forgotten, and those it gives are held. -/
theorem Advances.taken (held : Held sys old) (transfer : Transfer sys.state old t new [(p, capacity)] []) :
    Advances call sys ⟨t, forget p sys.live⟩ new := by
  obtain ⟨backed, untouched⟩ := Exchange.taken call.written transfer.ledger held.distinct
    held.backed
  exact ⟨⟨transfer.sound, backed⟩, untouched⟩

theorem Advances.given (held : Held sys old) (transfer : Transfer sys.state old t new [] [(p, capacity)])
    (fits : n ≤ capacity) : Advances call sys ⟨t, (p, n) :: sys.live⟩ new := by
  obtain ⟨backed, untouched⟩ := Exchange.given call.written transfer.ledger fits
    transfer.sound.distinct held.backed
  exact ⟨⟨transfer.sound, backed⟩, untouched⟩

theorem Advances.moved (held : Held sys old)
    (transfer : Transfer sys.state old t new [(p, capacity)] [(q, n)]) {size : Nat} (fits : size ≤ n)
    (carried : Carried sys.state t (p, capacity) (q, n)) :
    Advances call sys ⟨t, (q, size) :: forget p sys.live⟩ new := by
  obtain ⟨backed, untouched⟩ := Exchange.moved call.written transfer.ledger fits carried
    held.distinct transfer.sound.distinct held.backed
  exact ⟨⟨transfer.sound, backed⟩, untouched⟩

theorem perform_returns (run : Returns call.program sys.state p t) :
    perform call sys = .ok ⟨t, call.holding p sys.live⟩ := by
  unfold perform
  rw [show call.program sys.state = _ from run]

theorem perform_faults {fault : Fault} (run : Faults call.program sys.state fault) :
    perform call sys = .error fault := by
  unfold perform
  rw [show call.program sys.state = _ from run]

/-- A request that was served. -/
theorem Held.served (held : Held sys old) (served : Served sys.state old n p t new) :
    Advances call sys ⟨t, if p = 0 then sys.live else (p, n) :: sys.live⟩ new := by
  cases served with
  | refused denied null same after =>
    subst same
    rw [if_pos null]
    rcases after with rfl | rfl
    · exact ⟨⟨held.toSound, held.backed⟩, fun _ _ _ _ _ _ _ _ _ _ => rfl⟩
    · exact ⟨⟨held.toSound.answered, held.backed⟩, fun _ _ _ _ _ _ _ _ _ _ => rfl⟩
  | granted satisfied capacity fits transfer =>
    obtain ⟨rest, _, after, _⟩ := transfer.ledger
    rw [if_neg (owned_proper (after.mem_iff.mpr (List.mem_cons_self)))]
    exact .given held transfer fits

/-- What a step gives: the next state, and that it is as exact as the one before
under a condition. -/
def Steps (call : Call) (sys : System) (old : List Block) (small : Prop) : Prop :=
  ∃ next new, perform call sys = .ok next ∧ Advances call sys next new ∧
    (small → Keeps sys.state old next.state new)

/-- No pointer of the client is null. -/
theorem Held.forget_null (held : Held sys old) : forget 0 sys.live = sys.live := by
  refine List.filter_eq_self.mpr fun e member => decide_eq_true ?_
  obtain ⟨o, listed, same, _⟩ := held.backed.payload member
  exact same ▸ owned_proper listed

theorem srealloc_null (n : Nat) : Malloc3.srealloc 0 n = Malloc3.smalloc n := by
  unfold Malloc3.srealloc
  by_cases outside : n = 0 ∨ 100000000 < n
  · rw [if_pos outside]
    unfold Malloc3.smalloc
    rw [if_pos outside]
  · rw [if_neg outside, if_pos rfl]

theorem Held.smalloc (held : Held sys old) (n : Nat) :
    Steps (.smalloc n) sys old (SmallRequest sys.state n) := by
  obtain ⟨p, t, new, run, served, _, _, exactly, _⟩ := smalloc_served held.toSound n
  exact ⟨_, new, perform_returns run, held.served served, exactly⟩

theorem Held.scalloc (held : Held sys old) (num n : Nat) :
    Steps (.scalloc num n) sys old (SmallRequest sys.state (wrap (num * n))) := by
  obtain ⟨p, t, new, run, served, _, exactly, _⟩ := scalloc_served held.toSound num n
  exact ⟨_, new, perform_returns run, held.served served, exactly⟩

theorem Held.srealloc_null (held : Held sys old) (n : Nat) :
    Steps (.srealloc 0 n) sys old (SmallRequest sys.state n) := by
  obtain ⟨p, t, new, run, served, _, _, exactly, _⟩ := smalloc_served held.toSound n
  rw [← Malloc3.srealloc_null] at run
  refine ⟨_, new, perform_returns run, ?_, exactly⟩
  simp only [Call.holding, held.forget_null]
  exact held.served served

/-- Freeing null, a block of the heap or a mapping. -/
theorem Held.sfree (held : Held sys old) (legal : p = 0 ∨ p ∈ sys.live.map Prod.fst) :
    Steps (.sfree p) sys old (OnHeap sys.state p → blockSize sys.state p < MMAP_THRESHOLD) := by
  have begin : ∀ {t : State}, Returns (Malloc3.sfree p) sys.state () t →
      perform (.sfree p) sys = .ok ⟨t, forget p sys.live⟩ := fun run =>
    perform_returns (Returns.bind run Returns.pure)
  rcases legal with rfl | member
  · refine ⟨_, old, begin sfree_null, ?_, fun _ => .refl _ _⟩
    rw [held.forget_null]
    exact ⟨held, fun _ _ _ _ _ _ _ _ _ _ => rfl⟩
  rcases held.pointer member with ⟨b, listed, live, rfl⟩ | ⟨region, listed, rfl⟩
  · obtain ⟨place, sized⟩ := held.toSound.onHeap listed
    obtain ⟨t, new, run, transfer, exactly, _⟩ := sfree_heap held.toSound listed live
    exact ⟨_, new, begin run, .taken held transfer,
      fun small => exactly (sized ▸ small place)⟩
  · have transfer := held.toSound.unmapped listed
    exact ⟨_, old, begin (sfree_mapping held.mappings listed), .taken held transfer,
      fun _ => .unmapped old listed⟩

/-- Resizing a block of the heap that has room. -/
theorem Held.srealloc_fits (held : Held sys old) (member : p ∈ sys.live.map Prod.fst)
    (place : OnHeap sys.state p) (fits : n ≤ blockSize sys.state p) :
    Steps (.srealloc p n) sys old (SmallTrim (blockSize sys.state p) n) := by
  rcases held.pointer member with ⟨b, listed, live, rfl⟩ | ⟨region, listed, rfl⟩
  · obtain ⟨_, sized⟩ := held.toSound.onHeap listed
    rw [sized] at fits ⊢
    obtain ⟨q, t, new, run, outcome, exactly, _⟩ := srealloc_heap held.toSound listed live fits
    refine ⟨_, new, perform_returns run, ?_, exactly⟩
    rcases outcome with ⟨rfl, rfl, rfl, _⟩ | ⟨rfl, capacity, fits, transfer, carried⟩
    · exact ⟨held, fun _ _ _ _ _ _ _ _ _ _ => rfl⟩
    · simp only [Call.holding]
      rw [if_neg (by omega)]
      exact .moved held transfer fits carried
  · exact absurd place (held.toSound.offHeap listed)

/-- A write of the client to what it holds leaves the blocks as they are. -/
theorem Held.overwrite (held : Held sys old) {a : Nat} {byte : UInt8}
    (inside : ∃ e ∈ sys.live, e.1 ≤ a ∧ a < e.1 + e.2) : ∃ bytes,
      perform (.store a byte) sys = .ok ⟨sys.state.withBytes bytes, sys.live⟩ ∧
        Advances (.store a byte) sys ⟨sys.state.withBytes bytes, sys.live⟩ old := by
  have payload : a ∈ payloadCells (owned old sys.state.maps) := held.backed.cells inside
  have frame := store_outside sys.state.bytes a 1 byte.toNat
  have room : sys.state.Mapped a 1 := by
    obtain ⟨o, member, low, high⟩ := payload
    exact (held.toSound.payload_mapped member).sub low (by omega)
  have only : ∀ x, x ∈ cells a 1 → x = a := fun x here => by
    simp only [mem_cells] at here
    omega
  have sound := held.toSound.write frame fun x here => only x here ▸ payload
  exact ⟨_, perform_returns (Returns.bind (storeCells_returns room) Returns.pure),
    ⟨⟨sound, held.backed⟩, fun _ _ _ _ _ x _ _ _ clear => frame fun here => clear (only x here)⟩⟩

theorem Held.store (held : Held sys old) {a : Nat} {byte : UInt8}
    (inside : ∃ e ∈ sys.live, e.1 ≤ a ∧ a < e.1 + e.2) : Steps (.store a byte) sys old True := by
  obtain ⟨bytes, step, advances⟩ := held.overwrite inside
  exact ⟨_, old, step, advances, fun _ => .write _ _ _⟩

/-- Every legal call that grows nothing returns and leaves a sound state. -/
theorem perform_advances (held : Held sys old) (legal : Legal call sys) (shrinks : Shrinks call sys) :
    Steps call sys old (SmallBlocks call sys) := by
  cases call with
  | smalloc n => exact held.smalloc n
  | scalloc num n => exact held.scalloc num n
  | sfree p => exact held.sfree legal
  | store a byte => exact held.store legal
  | srealloc p n =>
    by_cases null : p = 0
    · subst null
      exact held.srealloc_null n
    · obtain ⟨place, fits⟩ := shrinks.resolve_left null
      have step := held.srealloc_fits (legal.resolve_left null) place fits
      simp only [SmallBlocks, if_neg null]
      exact step

/-- An aligned launch is a sound and exact state. -/
theorem Launch.held (launch : Launch) (aligned : launch.brk % 8 = 0) : Held launch.system [] where
  tiled :=
    { proper := by
        have := launch.proper
        simp only [Launch.system]
        omega
      aligned := aligned
      origin := rfl
      small := by
        have := launch.small
        simp only [Launch.system]
        omega
      tiles := rfl
      stored := fun b member => absurd member List.not_mem_nil
      listed := ⟨[], List.Perm.refl _, ⟨⟨by simp, List.nodup_nil, by
        simp [DoublyLinked.Links.Joined, DoublyLinked.Links.succ, links, Launch.system]⟩,
        by simp, by simp, by simp⟩,
        List.Pairwise.nil⟩
      counted := rfl }
  wilderness := rfl
  shown := fun b member => absurd member List.not_mem_nil
  mappings := ⟨by simp [MapsApart, Launch.system], by simp [Launch.system], List.Pairwise.nil⟩
  backed := ⟨List.Perm.refl _, by simp [Launch.system]⟩

theorem Launch.exact (launch : Launch) : Exact launch.system.state [] where
  coalesced := ⟨by simp, List.isChain_nil⟩
  counters := rfl
  strays := rfl

end OperatingSystems.Malloc3
