import OperatingSystems.Malloc3.Srealloc
import OperatingSystems.Malloc3.WellFormed

/-!
# Every call of a client

One step of a client that also resizes what it holds, in any direction. As long
as each resize is safe, a call returns in a sound state in which the client's
bytes are where it left them, or it stops the program: for want of memory, or by
an assertion about an unaligned block.
-/

namespace OperatingSystems.Malloc3

open Bytes Process MallocMetadata Tiling Payloads Runs

/-- The state is sound, the client holds what was handed out, and it asked for
something each time. -/
structure Occupied (sys : System) (blocks : List Block) : Prop extends Held sys blocks where
  positive : ∀ e ∈ sys.live, 0 < e.2

/-- A resize by the client is safe. -/
def SafeCall (call : Call) (sys : System) : Prop :=
  match call with
  | .srealloc p n => p ≠ 0 → SafeResize sys.state p n
  | _ => True

/-- Every block of the heap that the call hands to `sfree` is smaller than the
threshold, also when the call grows a block. -/
def SmallCall (call : Call) (sys : System) : Prop :=
  match call with
  | .srealloc p n => if p = 0 then SmallRequest sys.state n else SmallResize sys.state p n
  | call => SmallBlocks call sys

/-- A resize cuts at a multiple of 8 only. -/
def EvenCall (call : Call) (sys : System) : Prop :=
  match call with
  | .srealloc p n => p ≠ 0 → EvenResize sys.state p n
  | _ => True

instance (call : Call) (sys : System) : Decidable (SafeCall call sys) :=
  match call with
  | .srealloc p n => inferInstanceAs (Decidable (p ≠ 0 → SafeResize sys.state p n))
  | .smalloc _ | .scalloc _ _ | .sfree _ | .store _ _ => inferInstanceAs (Decidable True)

instance (call : Call) (sys : System) : Decidable (SmallCall call sys) :=
  match call with
  | .srealloc p n =>
    inferInstanceAs (Decidable (if p = 0 then SmallRequest sys.state n else SmallResize sys.state p n))
  | .smalloc n => inferInstanceAs (Decidable (SmallBlocks (.smalloc n) sys))
  | .scalloc num n => inferInstanceAs (Decidable (SmallBlocks (.scalloc num n) sys))
  | .sfree p => inferInstanceAs (Decidable (SmallBlocks (.sfree p) sys))
  | .store a byte => inferInstanceAs (Decidable (SmallBlocks (.store a byte) sys))

instance (call : Call) (sys : System) : Decidable (EvenCall call sys) :=
  match call with
  | .srealloc p n => inferInstanceAs (Decidable (p ≠ 0 → EvenResize sys.state p n))
  | .smalloc _ | .scalloc _ _ | .sfree _ | .store _ _ => inferInstanceAs (Decidable True)

/-- How a call proceeds from a state with these blocks. -/
inductive Proceeds (call : Call) (sys : System) (old : List Block) : Prop
  | returned (next : System) (new : List Block) (step : perform call sys = .ok next)
      (occupied : Occupied next new) (untouched : Untouched call sys next)
      (strays : SmallCall call sys → next.state.strayUnmaps = sys.state.strayUnmaps)
      (aligned : EvenCall call sys → Aligned old → Aligned new)
  | stopped (fault : Fault) (step : perform call sys = .error fault)
      (odd : fault = .assertion → ¬Aligned old)

variable {sys next : System} {old new blocks : List Block} {call : Call} {p n : Nat} {s t : State}

/-- A payload that the client holds, by its pointer. -/
theorem Occupied.payload (occupied : Occupied sys old) (member : p ∈ sys.live.map Prod.fst) :
    ∃ o ∈ owned old sys.state.maps, o.1 = p ∧ 0 < o.2 := by
  obtain ⟨e, held, rfl⟩ := List.mem_map.mp member
  obtain ⟨o, listed, same, fits⟩ := occupied.backed.payload held
  exact ⟨o, listed, same, Nat.lt_of_lt_of_le (occupied.positive e held) fits⟩

/-- A request that was served leaves the client with what it asked for. -/
theorem Occupied.served (occupied : Occupied sys old) (served : Served sys.state old n p t new) :
    Occupied ⟨t, if p = 0 then sys.live else (p, n) :: sys.live⟩ new ∧
      Untouched call sys ⟨t, if p = 0 then sys.live else (p, n) :: sys.live⟩ := by
  have advances : Advances call sys _ new := occupied.toHeld.served served
  obtain ⟨held, untouched⟩ := advances
  refine ⟨⟨held, ?_⟩, untouched⟩
  cases served with
  | refused denied null same after =>
    rw [if_pos null]
    exact occupied.positive
  | granted satisfied capacity fits transfer =>
    obtain ⟨rest, _, after, _⟩ := transfer.ledger
    rw [if_neg (owned_proper (after.mem_iff.mpr (List.mem_cons_self)))]
    exact List.forall_mem_cons.mpr ⟨satisfied.1, occupied.positive⟩

theorem Occupied.smalloc (occupied : Occupied sys old) (n : Nat) :
    Proceeds (.smalloc n) sys old := by
  obtain ⟨p, t, new, run, served, _, _, exactly, aligned⟩ := smalloc_served occupied.toSound n
  obtain ⟨after, untouched⟩ := occupied.served served
  exact .returned _ new (perform_returns run) after untouched (fun small => (exactly small).strays)
    fun _ => aligned

theorem Occupied.scalloc (occupied : Occupied sys old) (num n : Nat) :
    Proceeds (.scalloc num n) sys old := by
  obtain ⟨p, t, new, run, served, _, exactly, aligned⟩ := scalloc_served occupied.toSound num n
  obtain ⟨after, untouched⟩ := occupied.served served
  exact .returned _ new (perform_returns run) after untouched (fun small => (exactly small).strays)
    fun _ => aligned

theorem Occupied.srealloc_null (occupied : Occupied sys old) (n : Nat) :
    Proceeds (.srealloc 0 n) sys old := by
  obtain ⟨p, t, new, run, served, _, _, exactly, aligned⟩ := smalloc_served occupied.toSound n
  obtain ⟨after, untouched⟩ := occupied.served served
  rw [← Malloc3.srealloc_null] at run
  have step : perform (.srealloc 0 n) sys = _ := perform_returns run
  simp only [Call.holding, occupied.toHeld.forget_null] at step
  exact .returned _ new step after untouched (fun small => (exactly small).strays) fun _ => aligned

/-- Forgetting a pointer leaves the sizes of the others. -/
theorem Occupied.forgotten (occupied : Occupied sys old) : ∀ e ∈ forget p sys.live, 0 < e.2 :=
  fun e member => occupied.positive e (List.mem_filter.mp member).1

theorem Occupied.sfree (occupied : Occupied sys old) (legal : p = 0 ∨ p ∈ sys.live.map Prod.fst) :
    Proceeds (.sfree p) sys old := by
  have begin : ∀ {t : State}, Returns (Malloc3.sfree p) sys.state () t →
      perform (.sfree p) sys = .ok ⟨t, forget p sys.live⟩ := fun run =>
    perform_returns (Returns.bind run Returns.pure)
  by_cases null : p = 0
  · subst null
    refine .returned _ old (begin sfree_null) ?_ (fun _ _ _ _ _ _ _ _ _ _ => rfl) (fun _ => rfl)
      fun _ => id
    rw [occupied.toHeld.forget_null]
    exact occupied
  obtain ⟨o, listed, rfl, _⟩ := occupied.payload (legal.resolve_left null)
  obtain ⟨t, new, run, transfer, exactly, aligned⟩ := sfree_owned occupied.toSound listed
  have advances : Advances (.sfree o.1) sys _ new := .taken occupied.toHeld transfer
  obtain ⟨held, untouched⟩ := advances
  refine .returned _ new (begin run) ⟨held, occupied.forgotten⟩ untouched (fun small => ?_)
    fun _ => aligned
  refine (exactly ?_).strays
  rcases mem_owned.mp listed with ⟨b, known, _, rfl⟩ | mapping
  · obtain ⟨place, sized⟩ := occupied.toSound.onHeap known
    have below := small place
    rw [sized] at below
    exact Or.inl below
  · exact Or.inr mapping

theorem Occupied.store (occupied : Occupied sys old) {a : Nat} {byte : UInt8}
    (inside : ∃ e ∈ sys.live, e.1 ≤ a ∧ a < e.1 + e.2) : Proceeds (.store a byte) sys old := by
  obtain ⟨bytes, step, held, untouched⟩ := occupied.toHeld.overwrite inside
  exact .returned _ old step ⟨held, occupied.positive⟩ untouched (fun _ => rfl) fun _ => id

theorem Occupied.srealloc (occupied : Occupied sys old) (member : p ∈ sys.live.map Prod.fst)
    (safe : SafeResize sys.state p n) : Proceeds (.srealloc p n) sys old := by
  obtain ⟨o, listed, rfl, positive⟩ := occupied.payload member
  have proper := owned_proper listed
  rcases srealloc_outcome occupied.toSound listed positive safe with ⟨_, run⟩ | grew
  · refine .returned _ old (perform_returns run) ?_ (fun _ _ _ _ _ _ _ _ _ _ => rfl) (fun _ => rfl)
      fun _ => id
    exact occupied
  cases grew with
  | stranded cannot run => exact .stopped .segv (perform_faults run) nofun
  | failed odd run => exact .stopped .assertion (perform_faults run) fun _ => odd
  | moved able q t new run resized strays aligned =>
    obtain ⟨capacity, fits, transfer, carried⟩ := resized
    obtain ⟨rest, _, after, _⟩ := transfer.ledger
    have handed : q ≠ 0 := owned_proper (after.mem_iff.mpr (List.mem_cons_self))
    have advances : Advances (.srealloc o.1 n) sys _ new :=
      .moved occupied.toHeld transfer fits carried
    obtain ⟨held, untouched⟩ := advances
    have step : perform (.srealloc o.1 n) sys = _ := perform_returns run
    simp only [Call.holding, if_neg handed] at step
    refine .returned _ new step ⟨held, ?_⟩ untouched (fun small => strays ?_) fun even => aligned ?_
    · exact List.forall_mem_cons.mpr ⟨able.1, occupied.forgotten⟩
    · simpa only [SmallCall, if_neg proper] using small
    · exact even proper

/-- Every legal and safe call proceeds. -/
theorem Occupied.perform (occupied : Occupied sys old) (legal : Legal call sys)
    (safe : SafeCall call sys) : Proceeds call sys old := by
  cases call with
  | smalloc n => exact occupied.smalloc n
  | scalloc num n => exact occupied.scalloc num n
  | sfree p => exact occupied.sfree legal
  | store a byte => exact occupied.store legal
  | srealloc p n =>
    by_cases null : p = 0
    · subst null
      exact occupied.srealloc_null n
    · exact occupied.srealloc (legal.resolve_left null) (safe null)

end OperatingSystems.Malloc3
