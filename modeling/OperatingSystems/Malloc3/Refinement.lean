import OperatingSystems.Malloc3.SafeRuns
import OperatingSystems.Malloc3.Requests
import OperatingSystems.Allocator

/-!
# The allocator of `malloc_3.cpp` refines the abstract one

The answers and the bytes of every run of a client that uses the pointers it
holds are those of an abstract heap, also when the run is stopped by a fault. Its
resizes have to be safe, nothing large may be freed into the heap, and no product
may wrap around to a request that can be satisfied.
-/

namespace OperatingSystems.Malloc3

open Bytes Process MallocMetadata Payloads Runs Allocator

/-- What a call asks for. `srealloc` of null is `smalloc`. -/
def Call.request : Call → Request
  | .smalloc size => .allocate size
  | .scalloc num size => .zeroed (num * size)
  | .sfree p => .release p
  | .srealloc p size => if p = 0 then .allocate size else .resize p size
  | .store a byte => .store a byte

/-- The answer to a call that returns. -/
def Call.answer (call : Call) (s : State) : Nat :=
  match call.program s with
  | .ok (p, _) => p
  | .error _ => 0

/-- The request of a call and the answer it gets. -/
def shown (call : Call) (sys : System) : Request × Nat := (call.request, call.answer sys.state)

variable {s t : State} {sys next : System} {old new : List Block} {call : Call} {live : List (Nat × Nat)}
  {p n : Nat}

/-- A call that has returned has returned its answer. -/
theorem ask_answers (step : ask call sys = .ok next) :
    Returns call.program sys.state (call.answer sys.state) next.state ∧
      next.live = call.asking (call.answer sys.state) sys.live := by
  unfold ask at step
  cases run : call.program sys.state with
  | ok result =>
    obtain ⟨p, t⟩ := result
    have answer : call.answer sys.state = p := by rw [Call.answer, run]
    rw [run] at step
    obtain rfl := Except.ok.inj step
    rw [answer]
    exact ⟨run, rfl⟩
  | error fault =>
    rw [run] at step
    exact absurd step nofun

/-- The client and the abstract one hold the same. -/
theorem request_holding (apart : Apart live) (call : Call) (p : Nat) :
    call.request.holding p live = call.asking p live := by
  cases call with
  | srealloc q n =>
    by_cases null : q = 0
    · subst null
      simp [Call.request, Request.holding, Call.asking, Call.holding, apart.forget_null]
    · simp [Call.request, Request.holding, Call.asking, Call.holding, null]
  | smalloc _ | scalloc _ _ | sfree _ | store _ _ => rfl

theorem request_written (call : Call) : call.request.written = call.written := by
  cases call with
  | srealloc q n =>
    simp only [Call.request, Call.written]
    split <;> rfl
  | smalloc _ | scalloc _ _ | sfree _ | store _ _ => rfl

theorem request_proper (legal : Legal call sys) : call.request.Proper sys.live := by
  cases call with
  | srealloc q n =>
    by_cases null : q = 0
    · simp [Call.request, null, Request.Proper]
    · simp only [Call.request, null, if_false]
      exact legal.resolve_left null
  | smalloc _ | scalloc _ _ => trivial
  | sfree _ | store _ _ => exact legal

/-- What a call hands out has the size asked for, within the limits. -/
theorem Held.answer_bounded (held : Held sys old) (unwrapped : Unwrapped call sys)
    (run : Returns call.program sys.state p t) (handed : p ≠ 0) : 0 < call.request.size ∧ call.request.size ≤ 100000000 := by
  have within : ∀ {n : Nat} {program : Alloc Nat},
      (n = 0 ∨ 100000000 < n → ∃ u, Returns program sys.state 0 u) → Returns program sys.state p t →
        0 < n ∧ n ≤ 100000000 := by
    intro n program refused returns
    by_contra outside
    obtain ⟨u, null⟩ := refused (by omega)
    exact handed (returns.unique null).1
  cases call with
  | smalloc n => exact within (fun outside => ⟨_, (smalloc_outside _ [] outside).2⟩) run
  | scalloc num size =>
    have bounds := within (n := wrap (num * size)) (fun outside =>
      ⟨_, Returns.bind (smalloc_outside _ [] outside).2 (Returns.ifPos rfl Returns.pure)⟩) run
    rwa [held.product unwrapped run handed] at bounds
  | srealloc q n =>
    have sized : (Call.srealloc q n).request.size = n := by
      simp only [Call.request]
      split <;> rfl
    rw [sized]
    exact within (fun outside => ⟨_, Returns.ifPos outside Returns.pure⟩) run
  | sfree q | store a byte =>
    obtain ⟨_, u, _, pure⟩ := run.of_bind
    exact absurd (pure.unique Returns.pure).1 handed

/-- `sfree` and a write of the client have no result. -/
theorem answer_null (run : Returns call.program s p t) (asks : ¬call.request.Asks) : p = 0 := by
  cases call with
  | smalloc _ | scalloc _ _ => exact absurd trivial asks
  | srealloc q n =>
    refine absurd ?_ asks
    simp only [Call.request]
    split <;> trivial
  | sfree q | store a byte =>
    obtain ⟨_, u, _, pure⟩ := run.of_bind
    exact (pure.unique Returns.pure).1

/-- What the client holds does not overlap. -/
theorem Held.apart (held : Held sys old) : Apart sys.live :=
  apart_of_backed held.backed (fun _ member => owned_proper member) held.distinct
    (held.separate.imp fun {x y} clear => by omega)

/-- The bytes `scalloc` hands out are zero. -/
theorem Held.cleared (held : Held sys old) {num size : Nat} (unwrapped : Unwrapped (.scalloc num size) sys)
    (run : Returns (Malloc3.scalloc num size) sys.state p t) (handed : p ≠ 0) :
    ∀ x, p ≤ x → x < p + num * size → t.bytes x = 0 := by
  obtain ⟨q, u, new, returns, _, zero, _⟩ := scalloc_served held.toSound num size
  obtain ⟨rfl, rfl⟩ := run.unique returns
  rw [held.product unwrapped run handed] at zero
  exact zero handed

/-- `srealloc` carries what the client asked for. -/
theorem Occupied.carries (occupied : Occupied sys old) (member : p ∈ sys.live.map Prod.fst)
    (safe : SafeResize sys.state p n) {q : Nat} (run : Returns (Malloc3.srealloc p n) sys.state q t)
    (handed : q ≠ 0) :
    ∀ e ∈ sys.live, e.1 = p → ∀ i, i < e.2 → i < n → t.bytes (q + i) = sys.state.bytes (p + i) := by
  rintro e held rfl i inside fits
  obtain ⟨o, listed, start, room⟩ := occupied.backed.payload held
  rw [← start] at run safe ⊢
  have positive : 0 < o.2 := by omega
  rcases srealloc_outcome occupied.toSound listed positive safe with ⟨_, null⟩ | grew
  · exact absurd (run.unique null).1 handed
  cases grew with
  | stranded _ faults => exact absurd run faults.not_returns
  | failed _ faults => exact absurd run faults.not_returns
  | moved _ r u new returns resized _ _ =>
    obtain ⟨rfl, rfl⟩ := run.unique returns
    obtain ⟨capacity, enough, _, carried⟩ := resized
    exact carried i (by omega) (by simp only; omega)

/-- The bytes of the payload that a call is about. -/
theorem Occupied.fulfils (occupied : Occupied sys old) (safe : Safe call sys)
    (unwrapped : Unwrapped call sys) (step : ask call sys = .ok next) :
    call.request.Fulfilled (call.answer sys.state) sys.live sys.state.bytes next.state.bytes := by
  obtain ⟨run, _⟩ := ask_answers step
  cases call with
  | smalloc _ | sfree _ => trivial
  | scalloc num size => exact occupied.toHeld.cleared unwrapped run
  | srealloc p n =>
    by_cases null : p = 0
    · simp only [Call.request, null, if_true]
      trivial
    · simp only [Call.request, null, if_false]
      exact occupied.carries (safe.1.resolve_left null) (safe.2 null) run
  | store a byte =>
    obtain ⟨_, u, stored, pure⟩ := run.of_bind
    obtain ⟨_, same⟩ := pure.unique Returns.pure
    exact same ▸ storeCells_byte stored

/-- A call of these runs is clean, and its product does not wrap around. -/
def Exacting (call : Call) (sys : System) : Prop := Clean call sys ∧ Unwrapped call sys

instance (call : Call) (sys : System) : Decidable (Exacting call sys) :=
  inferInstanceAs (Decidable (_ ∧ _))

/-- Every such call that returns meets its request. -/
theorem Occupied.meets (occupied : Occupied sys old) (none : sys.state.strayUnmaps = [])
    (exacting : Exacting call sys) (step : ask call sys = .ok next) :
    Meets 100000000 call.request (call.answer sys.state) sys.live sys.state.bytes next.state.bytes ∧
      next.live = call.request.holding (call.answer sys.state) sys.live ∧
      (∃ new, Occupied next new) ∧ next.state.strayUnmaps = [] := by
  obtain ⟨⟨safe, small⟩, unwrapped⟩ := exacting
  obtain ⟨run, holds⟩ := ask_answers step
  rw [← request_holding occupied.toHeld.apart] at holds
  cases occupied.perform safe.1 safe.2 with
  | stopped fault failed _ =>
    exact absurd (step.symm.trans ((occupied.toHeld.asks unwrapped).trans failed)) nofun
  | returned reached new same after untouched strays _ =>
  obtain rfl : next = reached :=
    Except.ok.inj (step.symm.trans ((occupied.toHeld.asks unwrapped).trans same))
  have apart := after.toHeld.apart
  have unchanged : Unchanged sys.state.bytes next.state.bytes sys.live next.live call.written := untouched
  rw [holds] at apart unchanged
  exact ⟨⟨apart, request_written call ▸ unchanged, answer_null run,
    occupied.toHeld.answer_bounded unwrapped run, occupied.fulfils safe unwrapped step⟩, holds, ⟨new, after⟩,
    (strays small).trans none⟩

/-- The requests and answers of every such run are those of an abstract heap, as far as
the run gets, and in the state it reaches the memory represents that heap, of which
`munmap` has taken nothing. -/
theorem runs_refine (launch : Launch) (aligned : launch.brk % 8 = 0) (calls : List Call)
    (exacting : Obeys ask Exacting calls launch.system) :
    ∃ heap, Follows (fun seen => Serves 100000000 seen.1 seen.2) (trace ask shown calls launch.system)
        Heap.empty heap ∧
      Ends (fun sys => Represents sys.live sys.state.bytes heap ∧ sys.state.strayUnmaps = [])
        (fun _ => True) (execute ask calls launch.system) := by
  obtain ⟨heap, follows, ends⟩ := execute_follows (S := fun seen => Serves 100000000 seen.1 seen.2) (f := shown)
    (R := fun heap sys => Represents sys.live sys.state.bytes heap ∧ (∃ blocks, Occupied sys blocks) ∧
      sys.state.strayUnmaps = [])
    (fun call sys next heap related allowed step => by
      obtain ⟨represents, ⟨old, occupied⟩, none⟩ := related
      obtain ⟨meets, holds, after⟩ := occupied.meets none allowed step
      obtain ⟨k, serves, still⟩ := meets.serves (request_proper allowed.1.1.1) represents
      exact ⟨k, serves, holds ▸ still, after⟩)
    ⟨represents_empty _, ⟨[], launch.occupied aligned⟩, rfl⟩ exacting
  exact ⟨heap, follows, ends.mono fun _ related => ⟨related.1, related.2.2⟩⟩

/-- The run that resizes in every way reaches its end. -/
theorem runs_refine_sample : (execute ask resizes amply.system).toOption.isSome = true ∧
    ∃ heap, Follows (fun seen => Serves 100000000 seen.1 seen.2) (trace ask shown resizes amply.system)
        Heap.empty heap ∧
      Ends (fun sys => Represents sys.live sys.state.bytes heap ∧ sys.state.strayUnmaps = [])
        (fun _ => True) (execute ask resizes amply.system) :=
  ⟨by decide +kernel, runs_refine amply (by decide) resizes (by decide +kernel)⟩

end OperatingSystems.Malloc3
