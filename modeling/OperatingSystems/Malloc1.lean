import OperatingSystems.Process
import OperatingSystems.Allocator

/-!
# The allocator of `malloc_1.cpp`

`smalloc` moves the program break and hands out what lies below it. Nothing is
ever given back, so that the payloads stand one on the other from the first
break to the present one.
-/

namespace OperatingSystems.Malloc1

open Bytes Process Payloads Runs Allocator

abbrev State := Machine Unit

def smalloc (size : Nat) : Program Unit Nat :=
  if size = 0 ∨ 100000000 < size then pure 0
  else do
    let res ← sbrk size
    if res = mapFailed then pure 0 else pure res

/-- The process, and what the client holds: each pointer with the size requested for
it. -/
structure System where
  state : State
  live : List (Nat × Nat)

/-- What a client may do. -/
inductive Call where
  | smalloc (size : Nat)
  | store (a : Nat) (byte : UInt8)

/-- The program of a call; a write returns null. -/
def Call.program : Call → Program Unit Nat
  | .smalloc size => Malloc1.smalloc size
  | .store a byte => do storeCells a 1 byte.toNat; pure 0

def Call.request : Call → Request
  | .smalloc size => .allocate size
  | .store a byte => .store a byte

/-- The answer to a call that returns. -/
def Call.answer (call : Call) (s : State) : Nat :=
  match call.program s with
  | .ok (p, _) => p
  | .error _ => 0

/-- The request of a call and the answer it gets. -/
def shown (call : Call) (sys : System) : Request × Nat := (call.request, call.answer sys.state)

/-- Perform one call. -/
def perform (call : Call) (sys : System) : Except Fault System :=
  match call.program sys.state with
  | .ok (p, state) => .ok ⟨state, call.request.holding p sys.live⟩
  | .error fault => .error fault

/-- The process before the first call. -/
structure Launch where
  brk : Nat
  contents : Memory
  replies : List Reply
  proper : 0 < brk
  small : brk < 2 ^ 64 - 1

/-- Nothing is allocated yet. -/
def Launch.system (launch : Launch) : System where
  state :=
    { bytes := launch.contents
      heapStart := launch.brk
      brk := launch.brk
      maps := []
      replies := launch.replies
      strayUnmaps := []
      globals := () }
  live := []

/-- The client writes only to what it asked for. -/
def Legal (call : Call) (sys : System) : Prop :=
  match call with
  | .smalloc _ => True
  | .store a _ => ∃ e ∈ sys.live, e.1 ≤ a ∧ a < e.1 + e.2

instance (call : Call) (sys : System) : Decidable (Legal call sys) := by
  cases call <;> unfold Legal <;> exact inferInstance

/-- The payloads, the last one first, fill the heap from its start to the break. -/
def Stacked (start : Nat) : List (Nat × Nat) → Nat → Prop
  | [], brk => brk = start
  | (p, n) :: rest, brk => 0 < n ∧ brk = p + n ∧ Stacked start rest p

variable {start brk p n : Nat} {live : List (Nat × Nat)} {s t : State} {sys next : System} {call : Call}

/-- The break is not below its start. -/
theorem Stacked.le (stacked : Stacked start live brk) : start ≤ brk := by
  induction live generalizing brk with
  | nil => exact Nat.le_of_eq stacked.symm
  | cons e rest inductionHypothesis =>
    obtain ⟨_, rfl, below⟩ := stacked
    have := inductionHypothesis below
    omega

/-- The payloads lie between the first break and the present one. -/
theorem Stacked.within (stacked : Stacked start live brk) :
    ∀ e ∈ live, start ≤ e.1 ∧ 0 < e.2 ∧ e.1 + e.2 ≤ brk := by
  induction live generalizing brk with
  | nil => simp
  | cons e rest inductionHypothesis =>
    obtain ⟨positive, rfl, below⟩ := stacked
    refine List.forall_mem_cons.mpr ⟨⟨below.le, positive, Nat.le_refl _⟩, fun f member => ?_⟩
    have := inductionHypothesis below f member
    omega

/-- Payloads that stand one on the other do not overlap. -/
theorem Stacked.apart (stacked : Stacked start live brk) (proper : 0 < start) : Apart live := by
  induction live generalizing brk with
  | nil => exact ⟨by simp, List.nodup_nil, by simp⟩
  | cons e rest inductionHypothesis =>
    have within := stacked.within
    obtain ⟨positive, _, below⟩ := stacked
    have lower := below.within
    obtain ⟨_, distinct, separate⟩ := inductionHypothesis below
    refine ⟨fun f member => ?_, List.nodup_cons.mpr ⟨fun again => ?_, distinct⟩, ?_⟩
    · have := within f member
      omega
    · obtain ⟨f, member, same⟩ := List.mem_map.mp again
      have := lower f member
      omega
    · intro f first g second other
      rcases List.mem_cons.mp first with rfl | inRest <;> rcases List.mem_cons.mp second with rfl | alsoInRest
      · exact absurd rfl other
      · have := lower g alsoInRest
        exact Or.inr (by omega)
      · have := lower f inRest
        exact Or.inl (by omega)
      · exact separate f inRest g alsoInRest other

/-- The heap of the process is full, and it has no mappings. -/
structure Sound (sys : System) : Prop where
  proper : 0 < sys.state.heapStart
  stacked : Stacked sys.state.heapStart sys.live sys.state.brk
  unmapped : sys.state.maps = []

/-- A request is refused, or extends the heap by what was asked for. -/
theorem smalloc_cases (s : State) (n : Nat) :
    (∃ replies, Returns (smalloc n) s 0 { s with replies := replies }) ∨
      0 < n ∧ n ≤ 100000000 ∧ ∃ bytes replies, Returns (smalloc n) s s.brk
          { s with brk := s.brk + n, bytes := bytes, replies := replies } ∧
        Set.EqOn bytes s.bytes (Set.Ico s.brk (s.brk + n))ᶜ := by
  by_cases outside : n = 0 ∨ 100000000 < n
  · exact Or.inl ⟨s.replies, Returns.ifPos outside Returns.pure⟩
  rcases sbrk_cases s (n := n) (by omega) (by omega) with ⟨_, refused⟩ | ⟨_, bytes, granted, same, top, _⟩
  · exact Or.inl ⟨_, Returns.ifNeg outside (Returns.bind refused (Returns.ifPos rfl Returns.pure))⟩
  · refine Or.inr ⟨by omega, by omega, bytes, _, Returns.ifNeg outside (Returns.bind granted
      (Returns.ifNeg (by unfold mapFailed; omega) Returns.pure)), same⟩

theorem perform_returns (call : Call) (run : Returns call.program sys.state p t) :
    perform call sys = .ok ⟨t, call.request.holding p sys.live⟩ ∧ call.answer sys.state = p := by
  unfold perform Call.answer
  rw [show call.program sys.state = _ from run]
  exact ⟨rfl, rfl⟩

/-- Every legal call returns, meets its request and keeps the heap full. -/
theorem Sound.step (sound : Sound sys) (legal : Legal call sys) :
    ∃ next, perform call sys = .ok next ∧ Sound next ∧
      Meets 100000000 call.request (call.answer sys.state) sys.live sys.state.bytes next.state.bytes ∧
      next.live = call.request.holding (call.answer sys.state) sys.live := by
  have apart := sound.stacked.apart sound.proper
  cases call with
  | smalloc n =>
    rcases smalloc_cases sys.state n with ⟨replies, run⟩ | ⟨positive, small, bytes, replies, run, same⟩
    · obtain ⟨step, answer⟩ := perform_returns (.smalloc n) run
      rw [answer]
      exact ⟨_, step, ⟨sound.proper, sound.stacked, sound.unmapped⟩,
        ⟨apart, fun _ _ _ _ _ _ _ _ _ _ => rfl, fun _ => rfl, fun handed => absurd rfl handed, trivial⟩, rfl⟩
    · obtain ⟨step, answer⟩ := perform_returns (.smalloc n) run
      have handed : sys.state.brk ≠ 0 := by
        have := sound.proper
        have := sound.stacked.le
        omega
      have holding : (Call.smalloc n).request.holding sys.state.brk sys.live = (sys.state.brk, n) :: sys.live :=
        if_neg handed
      have stacked : Stacked sys.state.heapStart ((sys.state.brk, n) :: sys.live) (sys.state.brk + n) :=
        ⟨positive, rfl, sound.stacked⟩
      rw [answer]
      refine ⟨_, step, ⟨sound.proper, holding.symm ▸ stacked, sound.unmapped⟩,
        ⟨holding.symm ▸ stacked.apart sound.proper, ?_, fun asks => absurd trivial asks, fun _ => ⟨positive, small⟩,
          trivial⟩, rfl⟩
      intro e member _ _ _ x low high _ _
      have := sound.stacked.within e member
      exact same fun fresh => by simp only [Set.mem_Ico] at fresh; omega
  | store a byte =>
    obtain ⟨e, member, low, high⟩ := id legal
    have place := sound.stacked.within e member
    have mapped : sys.state.Mapped a 1 := Machine.mapped_heap (by omega) (by omega)
    have stored : Returns (storeCells a 1 byte.toNat) sys.state () _ := storeCells_returns mapped
    obtain ⟨step, answer⟩ := perform_returns (.store a byte) (Returns.bind stored Returns.pure)
    rw [answer]
    refine ⟨_, step, ⟨sound.proper, sound.stacked, sound.unmapped⟩,
      ⟨apart, ?_, fun _ => rfl, fun handed => absurd rfl handed, storeCells_byte stored⟩, rfl⟩
    intro _ _ _ _ _ x _ _ _ other
    refine store_outside _ _ _ _ fun cell => other ?_
    simp only [mem_cells] at cell
    show x = a
    omega

theorem request_proper (legal : Legal call sys) : call.request.Proper sys.live := by
  cases call with
  | smalloc n => trivial
  | store a byte => exact legal

/-- Every run of a client that writes only to what it asked for returns. The payloads
then fill the heap without gaps, and the requests and answers are those of an
abstract heap, which the memory represents. -/
theorem requests_refine (launch : Launch) (calls : List Call)
    (legal : Obeys perform Legal calls launch.system) :
    ∃ heap sys, Follows (fun seen => Serves 100000000 seen.1 seen.2) (trace perform shown calls launch.system)
        Heap.empty heap ∧
      execute perform calls launch.system = .ok sys ∧ Represents sys.live sys.state.bytes heap ∧
      Stacked sys.state.heapStart sys.live sys.state.brk := by
  have start : Sound launch.system := ⟨launch.proper, rfl, rfl⟩
  obtain ⟨sys, reached, sound⟩ := (execute_ends (I := Sound) (E := fun _ => False) (fun call sys sound allowed => by
    obtain ⟨next, step, after, _⟩ := sound.step allowed
    rw [step]
    exact after) start legal).reaches
  obtain ⟨heap, follows, ends⟩ := execute_follows (S := fun seen => Serves 100000000 seen.1 seen.2) (f := shown)
    (R := fun heap sys => Represents sys.live sys.state.bytes heap ∧ Sound sys)
    (fun call sys next heap related allowed step => by
      obtain ⟨represents, sound⟩ := related
      obtain ⟨reached, same, after, meets, holds⟩ := sound.step allowed
      obtain rfl : next = reached := Except.ok.inj (step.symm.trans same)
      obtain ⟨k, serves, still⟩ := meets.serves (request_proper allowed) represents
      exact ⟨k, serves, holds ▸ still, after⟩)
    ⟨represents_empty _, start⟩ legal
  rw [reached] at ends
  exact ⟨heap, sys, follows, reached, ends.1, sound.stacked⟩

/-- Two payloads with a refused request between them. -/
theorem requests_refine_sample : ∃ heap sys, Follows (fun seen => Serves 100000000 seen.1 seen.2)
      (trace perform shown [.smalloc 10, .smalloc 100, .smalloc 0, .smalloc 7, .store 4106 3]
        (Launch.mk 4096 (fun _ => 0) [.grant 0 fun _ => 1, .refuse, .grant 0 fun _ => 2] (by decide)
          (by decide)).system) Heap.empty heap ∧
    execute perform [.smalloc 10, .smalloc 100, .smalloc 0, .smalloc 7, .store 4106 3]
      (Launch.mk 4096 (fun _ => 0) [.grant 0 fun _ => 1, .refuse, .grant 0 fun _ => 2] (by decide)
        (by decide)).system = .ok sys ∧
    Represents sys.live sys.state.bytes heap ∧ Stacked sys.state.heapStart sys.live sys.state.brk :=
  requests_refine _ _ (by decide +kernel)

end OperatingSystems.Malloc1
