import OperatingSystems.Malloc2.Resize
import OperatingSystems.Runs

/-!
# A client of the allocator

A client holds pointers, each with the size it last asked for, and remembers all
pointers it ever got. It calls the allocator or writes to what it got. The
answers of the operating system are part of the process, so a statement about
every start is one about every pattern of failures.
-/

namespace OperatingSystems.Malloc2

open Bytes Process MallocMetadata Payloads Runs

/-- The process, what the client holds, and all that was ever returned to it, each
pointer with the size that reached `smalloc` or `srealloc`. -/
structure System where
  state : State
  live : List (Nat × Nat)
  returned : List (Nat × Nat)

/-- What a client may do. -/
inductive Call where
  | smalloc (size : Nat)
  | scalloc (num size : Nat)
  | sfree (p : Nat)
  | srealloc (p size : Nat)
  | store (a : Nat) (byte : UInt8)

/-- The program of a call; calls without a result return null. -/
def Call.program : Call → Alloc Nat
  | .smalloc size => Malloc2.smalloc size
  | .scalloc num size => Malloc2.scalloc num size
  | .sfree p => do Malloc2.sfree p; pure 0
  | .srealloc p size => Malloc2.srealloc p size
  | .store a byte => do storeCells a 1 byte.toNat; pure 0

/-- The size that reaches `smalloc` or `srealloc`. For `scalloc` that is the product in
64 bits, which may be less than what the client asked for (`ask`). -/
def Call.requests : Call → Nat
  | .smalloc size | .srealloc _ size => size
  | .scalloc num size => wrap (num * size)
  | .sfree _ | .store _ _ => 0

/-- What the client holds once the call has returned `p`. A resize that returns
null leaves it what it had. -/
def Call.holding (p : Nat) (live : List (Nat × Nat)) (call : Call) : List (Nat × Nat) :=
  match call with
  | .smalloc _ | .scalloc _ _ => if p = 0 then live else (p, call.requests) :: live
  | .sfree q => forget q live
  | .srealloc q _ => if p = 0 then live else (p, call.requests) :: forget q live
  | .store _ _ => live

/-- Perform one call. -/
def perform (call : Call) (sys : System) : Except Fault System :=
  match call.program sys.state with
  | .ok (p, state) => .ok
    { state := state
      live := call.holding p sys.live
      returned := if p = 0 then sys.returned else (p, call.requests) :: sys.returned }
  | .error fault => .error fault

/-- The process before the first call. -/
structure Launch where
  brk : Nat
  contents : Memory
  replies : List Reply
  proper : 0 < brk
  small : brk < 2 ^ 64 - 1

/-- Nothing is allocated yet. -/
def Launch.system (launch : Launch) : System where
  state :=
    { bytes := launch.contents
      heapStart := launch.brk
      brk := launch.brk
      maps := []
      replies := launch.replies
      strayUnmaps := []
      globals := ⟨⟨0, 0, 0, 0, 0, 0⟩, []⟩ }
  live := []
  returned := []

/-- A run of the client from the launch on. -/
def run (launch : Launch) (calls : List Call) : Except Fault System :=
  execute perform calls launch.system

/-- Every call of the run satisfies the condition in the state it meets. -/
def During (launch : Launch) (condition : Call → System → Prop) (calls : List Call) : Prop :=
  Obeys perform condition calls launch.system

instance (launch : Launch) (condition : Call → System → Prop)
    [∀ call sys, Decidable (condition call sys)] (calls : List Call) :
    Decidable (During launch condition calls) :=
  inferInstanceAs (Decidable (Obeys _ _ _ _))

/-- The client passes null or one of these pointers, and writes only to what it
asked for under them. -/
def Call.Among (pointers : List (Nat × Nat)) : Call → Prop
  | .smalloc _ => True
  | .scalloc _ _ => True
  | .sfree p => p = 0 ∨ p ∈ pointers.map Prod.fst
  | .srealloc p _ => p = 0 ∨ p ∈ pointers.map Prod.fst
  | .store a _ => ∃ e ∈ pointers, e.1 ≤ a ∧ a < e.1 + e.2

instance (pointers : List (Nat × Nat)) (call : Call) : Decidable (call.Among pointers) := by
  cases call <;> unfold Call.Among <;> exact inferInstance

/-- The client uses pointers it got at some time. -/
def Known (call : Call) (sys : System) : Prop := call.Among sys.returned

/-- The client uses pointers it holds. -/
def Legal (call : Call) (sys : System) : Prop := call.Among sys.live

instance (call : Call) (sys : System) : Decidable (Known call sys) :=
  inferInstanceAs (Decidable (Call.Among _ _))

instance (call : Call) (sys : System) : Decidable (Legal call sys) :=
  inferInstanceAs (Decidable (Call.Among _ _))

variable {s t : State} {sys next : System} {old new blocks : List Block} {call : Call} {b : Block}
  {p n : Nat}

theorem perform_returns (call : Call) (run : Returns call.program sys.state p t) :
    perform call sys = .ok ⟨t, call.holding p sys.live,
      if p = 0 then sys.returned else (p, call.requests) :: sys.returned⟩ := by
  unfold perform
  rw [show call.program sys.state = _ from run]

/-- An empty heap is sound. -/
theorem Launch.sound (launch : Launch) : Sound launch.system.state [] where
  chain := DoublyLinked.represents_nil.mpr rfl
  stored := by simp
  ordered := List.Pairwise.nil
  within := by simp
  proper := ⟨launch.proper, Nat.le_refl _, launch.small⟩
  counters := rfl
  carved := rfl

/-- Each pointer is that of a block with room for what was asked for. -/
def Placed (pointers : List (Nat × Nat)) (blocks : List Block) : Prop :=
  ∀ e ∈ pointers, ∃ b ∈ blocks, e.1 = b.address + 32 ∧ e.2 ≤ b.size

theorem Placed.pointer {pointers : List (Nat × Nat)} (placed : Placed pointers blocks)
    (member : p ∈ pointers.map Prod.fst) : ∃ b ∈ blocks, p = b.address + 32 := by
  obtain ⟨e, listed, rfl⟩ := List.mem_map.mp member
  obtain ⟨b, inBlocks, here, _⟩ := placed e listed
  exact ⟨b, inBlocks, here⟩

theorem Placed.extend {pointers : List (Nat × Nat)} (placed : Placed pointers old)
    (extends_ : Extends old new) : Placed pointers new := by
  intro e listed
  obtain ⟨b, inOld, here, fits⟩ := placed e listed
  obtain ⟨c, inNew, address, size⟩ := extends_ b inOld
  exact ⟨c, inNew, by omega, by omega⟩

/-- A payload the client holds is that of a block with room. -/
theorem placed_of_backed {live : List (Nat × Nat)} (backed : Backed live (owned blocks)) :
    Placed live blocks := by
  intro e member
  obtain ⟨o, listed, same, fits⟩ := backed.payload member
  obtain ⟨b, inBlocks, _, rfl⟩ := mem_owned.mp listed
  exact ⟨b, inBlocks, same.symm, fits⟩

/-- A write of the client to a block. -/
theorem store_cases (sound : Sound s blocks) {pointers : List (Nat × Nat)} (placed : Placed pointers blocks)
    {a : Nat} (byte : UInt8) (among : ∃ e ∈ pointers, e.1 ≤ a ∧ a < e.1 + e.2) :
    Returns (Call.store a byte).program s 0 (s.withBytes (store s.bytes a 1 byte.toNat)) ∧
      Sound (s.withBytes (store s.bytes a 1 byte.toNat)) blocks := by
  obtain ⟨e, listed, low, high⟩ := among
  obtain ⟨b, member, here, fits⟩ := placed e listed
  have place := sound.within b member
  constructor
  · exact Returns.bind (storeCells_returns (Machine.mapped_heap (by omega) (by omega))) Returns.pure
  · refine sound.write member fun x out => store_outside _ _ _ _ fun cell => out ?_
    simp only [mem_cells] at cell ⊢
    omega

end OperatingSystems.Malloc2
