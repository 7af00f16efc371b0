import OperatingSystems.Malloc2.Requests
import OperatingSystems.Allocator

/-!
# The allocator of `malloc_2.cpp` refines the abstract one

The answers and the bytes of every run of a client that uses the pointers it
holds are those of an abstract heap, as long as no product wraps around to a request
that is granted.
-/

namespace OperatingSystems.Malloc2

open Bytes Process MallocMetadata Payloads Runs Allocator

/-- What a call asks for. `srealloc` of null is `smalloc`. -/
def Call.request : Call → Request
  | .smalloc size => .allocate size
  | .scalloc num size => .zeroed (num * size)
  | .sfree p => .release p
  | .srealloc p size => if p = 0 then .allocate size else .resize p size
  | .store a byte => .store a byte

/-- The answer to a call that returns. -/
def Call.answer (call : Call) (s : State) : Nat :=
  match call.program s with
  | .ok (p, _) => p
  | .error _ => 0

/-- The request of a call and the answer it gets. -/
def shown (call : Call) (sys : System) : Request × Nat := (call.request, call.answer sys.state)

variable {s t : State} {sys next : System} {old new : List Block} {call : Call} {live : List (Nat × Nat)}
  {p n : Nat}

/-- A call that has returned has returned its answer. -/
theorem ask_answers (step : ask call sys = .ok next) :
    Returns call.program sys.state (call.answer sys.state) next.state ∧
      next.live = call.asking (call.answer sys.state) sys.live := by
  unfold ask at step
  cases run : call.program sys.state with
  | ok result =>
    obtain ⟨p, t⟩ := result
    have answer : call.answer sys.state = p := by rw [Call.answer, run]
    rw [run] at step
    obtain rfl := Except.ok.inj step
    rw [answer]
    exact ⟨run, rfl⟩
  | error fault =>
    rw [run] at step
    exact absurd step nofun

/-- The client and the abstract one hold the same. -/
theorem request_holding (apart : Apart live) (call : Call) (p : Nat) :
    call.request.holding p live = call.asking p live := by
  cases call with
  | srealloc q n =>
    by_cases null : q = 0
    · subst null
      simp [Call.request, Request.holding, Call.asking, Call.holding, Call.requests, apart.forget_null]
    · simp [Call.request, Request.holding, Call.asking, Call.holding, Call.requests, null]
  | smalloc _ | scalloc _ _ | sfree _ | store _ _ => rfl

theorem request_written (call : Call) : call.request.written = call.written := by
  cases call with
  | srealloc q n =>
    simp only [Call.request, Call.written]
    split <;> rfl
  | smalloc _ | scalloc _ _ | sfree _ | store _ _ => rfl

theorem request_proper (legal : Legal call sys) : call.request.Proper sys.live := by
  cases call with
  | srealloc q n =>
    by_cases null : q = 0
    · simp [Call.request, null, Request.Proper]
    · simp only [Call.request, null, if_false]
      exact legal.resolve_left null
  | smalloc _ | scalloc _ _ => trivial
  | sfree _ | store _ _ => exact legal

/-- A size outside the limits is refused. -/
theorem smalloc_outside (outside : n = 0 ∨ 100000000 < n) : Returns (smalloc n) s 0 s :=
  Returns.ifPos outside Returns.pure

/-- What a call hands out has the size asked for, within the limits. -/
theorem Sound.answer_bounded (sound : Sound sys.state old) (unwrapped : Unwrapped call sys)
    (run : Returns call.program sys.state p t) (handed : p ≠ 0) : 0 < call.request.size ∧ call.request.size ≤ 100000000 := by
  have within : ∀ {n : Nat} {program : Alloc Nat},
      (n = 0 ∨ 100000000 < n → ∃ u, Returns program sys.state 0 u) → Returns program sys.state p t →
        0 < n ∧ n ≤ 100000000 := by
    intro n program refused returns
    by_contra outside
    obtain ⟨u, null⟩ := refused (by omega)
    exact handed (returns.unique null).1
  cases call with
  | smalloc n => exact within (fun outside => ⟨_, smalloc_outside outside⟩) run
  | scalloc num size =>
    have bounds := within (n := wrap (num * size)) (fun outside =>
      ⟨_, Returns.bind (smalloc_outside outside) (Returns.ifPos rfl Returns.pure)⟩) run
    rwa [sound.product unwrapped run handed] at bounds
  | srealloc q n =>
    have sized : (Call.srealloc q n).request.size = n := by
      simp only [Call.request]
      split <;> rfl
    rw [sized]
    exact within (fun outside => ⟨_, Returns.ifPos outside Returns.pure⟩) run
  | sfree q | store a byte =>
    obtain ⟨_, u, _, pure⟩ := run.of_bind
    exact absurd (pure.unique Returns.pure).1 handed

/-- `sfree` and a write of the client have no result. -/
theorem answer_null (run : Returns call.program s p t) (asks : ¬call.request.Asks) : p = 0 := by
  cases call with
  | smalloc _ | scalloc _ _ => exact absurd trivial asks
  | srealloc q n =>
    refine absurd ?_ asks
    simp only [Call.request]
    split <;> trivial
  | sfree q | store a byte =>
    obtain ⟨_, u, _, pure⟩ := run.of_bind
    exact (pure.unique Returns.pure).1

/-- What the client holds does not overlap. -/
theorem Held.apart (held : Held sys old) : Apart sys.live :=
  apart_of_backed held.backed (fun o member => by
    obtain ⟨b, _, _, rfl⟩ := mem_owned.mp member
    simp only
    omega) held.distinct held.payloads

/-- The bytes `scalloc` hands out are zero. -/
theorem Held.zeroed (held : Held sys old) {num size : Nat} (unwrapped : Unwrapped (.scalloc num size) sys)
    (run : Returns (Malloc2.scalloc num size) sys.state p t) (handed : p ≠ 0) :
    ∀ x, p ≤ x → x < p + num * size → t.bytes x = 0 := by
  rcases scalloc_outcome held.toSound num size with ⟨_, replies, null⟩ |
    ⟨q, u, new, c, _, returns, _, _, _, _, _, _, zero⟩
  · exact absurd (run.unique null).1 handed
  · obtain ⟨rfl, rfl⟩ := run.unique returns
    rw [held.toSound.product unwrapped run handed] at zero
    exact zero

/-- `srealloc` carries what the client asked for. -/
theorem Held.carries (held : Held sys old) (legal : Legal (.srealloc p n) sys)
    (step : ask (.srealloc p n) sys = .ok next) {q : Nat}
    (run : Returns (Malloc2.srealloc p n) sys.state q next.state) (handed : q ≠ 0) :
    ∀ e ∈ sys.live, e.1 = p → ∀ i, i < e.2 → i < n → next.state.bytes (q + i) = sys.state.bytes (p + i) := by
  obtain ⟨r, reached, new, same, _, resizes⟩ := held.srealloc legal
  obtain rfl : next = reached := Except.ok.inj (step.symm.trans same)
  obtain ⟨rfl, _⟩ := run.unique resizes.returns
  obtain ⟨_, c, _, _, _, _, carried⟩ := resizes.moved handed
  rintro e member rfl i inside fits
  obtain ⟨o, listed, start, room⟩ := held.backed.payload member
  obtain ⟨b, known, _, rfl⟩ := mem_owned.mp listed
  simp only at start room
  exact carried b known start.symm i (by omega)

/-- The bytes of the payload that a call is about. -/
theorem Held.fulfils (held : Held sys old) (legal : Legal call sys) (unwrapped : Unwrapped call sys)
    (step : ask call sys = .ok next) :
    call.request.Fulfilled (call.answer sys.state) sys.live sys.state.bytes next.state.bytes := by
  obtain ⟨run, _⟩ := ask_answers step
  cases call with
  | smalloc _ | sfree _ => trivial
  | scalloc num size => exact held.zeroed unwrapped run
  | srealloc p n =>
    by_cases null : p = 0
    · simp only [Call.request, null, if_true]
      trivial
    · simp only [Call.request, null, if_false]
      exact held.carries legal step run
  | store a byte =>
    obtain ⟨_, u, stored, pure⟩ := run.of_bind
    obtain ⟨_, same⟩ := pure.unique Returns.pure
    exact same ▸ storeCells_byte stored

/-- The client uses pointers it holds, and its products do not wrap around. -/
def Exacting (call : Call) (sys : System) : Prop := Legal call sys ∧ Unwrapped call sys

instance (call : Call) (sys : System) : Decidable (Exacting call sys) :=
  inferInstanceAs (Decidable (_ ∧ _))

/-- Every such call returns and meets its request. -/
theorem Held.meets (held : Held sys old) (exacting : Exacting call sys) :
    ∃ next, ask call sys = .ok next ∧
      Meets 100000000 call.request (call.answer sys.state) sys.live sys.state.bytes next.state.bytes ∧
      next.live = call.request.holding (call.answer sys.state) sys.live ∧ ∃ new, Held next new := by
  obtain ⟨legal, unwrapped⟩ := exacting
  obtain ⟨next, new, same, advances, _⟩ := held.step legal
  have step := (held.asks unwrapped).trans same
  obtain ⟨run, holds⟩ := ask_answers step
  rw [← request_holding held.apart] at holds
  have apart := advances.held.apart
  have unchanged := advances.untouched
  unfold Untouched at unchanged
  rw [holds] at apart unchanged
  exact ⟨next, step, ⟨apart, request_written call ▸ unchanged, answer_null run,
    held.toSound.answer_bounded unwrapped run, held.fulfils legal unwrapped step⟩, holds, new, advances.held⟩

/-- The requests and answers of every such run are those of an abstract heap, which the
memory then represents. -/
theorem calls_refine (launch : Launch) (calls : List Call) (exacting : Obeys ask Exacting calls launch.system) :
    ∃ heap sys, Follows (fun seen => Serves 100000000 seen.1 seen.2) (trace ask shown calls launch.system)
        Heap.empty heap ∧
      execute ask calls launch.system = .ok sys ∧ Represents sys.live sys.state.bytes heap := by
  have start : Held launch.system [] := ⟨launch.sound, List.Perm.refl _, by simp [Launch.system]⟩
  obtain ⟨sys, reached, _⟩ := (execute_ends (I := fun sys => ∃ blocks, Held sys blocks)
    (fun call sys holds allowed => by
      obtain ⟨_, held⟩ := holds
      obtain ⟨next, step, _, _, after⟩ := held.meets allowed
      rw [step]
      exact after) ⟨[], start⟩ exacting).reaches
  obtain ⟨heap, follows, ends⟩ := execute_follows (S := fun seen => Serves 100000000 seen.1 seen.2) (f := shown)
    (R := fun heap sys => Represents sys.live sys.state.bytes heap ∧ ∃ blocks, Held sys blocks)
    (fun call sys next heap related allowed step => by
      obtain ⟨represents, old, held⟩ := related
      obtain ⟨reached, same, meets, holds, after⟩ := held.meets allowed
      obtain rfl := Except.ok.inj (step.symm.trans same)
      obtain ⟨k, serves, still⟩ := meets.serves (request_proper allowed.1) represents
      exact ⟨k, serves, holds ▸ still, after⟩)
    ⟨represents_empty _, [], start⟩ exacting
  rw [reached] at ends
  exact ⟨heap, sys, follows, reached, ends.1⟩

/-- A payload is cleared, written, resized into a freed block and freed, and one request
is refused. -/
theorem calls_refine_sample : ∃ heap sys, Follows (fun seen => Serves 100000000 seen.1 seen.2)
      (trace ask shown [.smalloc 100, .scalloc 2 15, .store 8224 7, .sfree 4128, .srealloc 8224 80,
        .smalloc 1000, .srealloc 0 0, .sfree 4128]
        (launchWith [.grant 4096 (fun _ => 0), .grant 8192 (fun _ => 0), .refuse]).system) Heap.empty heap ∧
    execute ask [.smalloc 100, .scalloc 2 15, .store 8224 7, .sfree 4128, .srealloc 8224 80, .smalloc 1000,
        .srealloc 0 0, .sfree 4128]
      (launchWith [.grant 4096 (fun _ => 0), .grant 8192 (fun _ => 0), .refuse]).system = .ok sys ∧
    Represents sys.live sys.state.bytes heap :=
  calls_refine _ _ (by decide +kernel)

end OperatingSystems.Malloc2
