import OperatingSystems.Malloc3.Srealloc
import OperatingSystems.Malloc3.Requests

/-!
# Growing into a free predecessor

Three branches of `tryMergeRealloc` move a payload down into the free block
before it. The move comes first and the headers it passes over leave the list
afterwards, so the move must spare their links. It does as long as the payload
is at most 48 bytes longer than the free block: then it ends before the links of
its own old header. The last of the branches asserts that the heap is extended by a
multiple of 8, which a cut at an odd size may have made untrue.
-/

namespace OperatingSystems.Malloc3

open Bytes Process MallocMetadata Tiling Payloads Runs

variable {s t : State} {blocks more post new : List Block} {p b c : Block} {n q : Nat}

/-- The block at `a` grows into the free one before it, and the system grants what
that takes. -/
def MergesDown (s : State) (a n : Nat) : Prop :=
  Grows s a n ∧
    (growth s a n = .intoPrevious ∨ growth s a n = .previousOverBreak ∨ growth s a n = .intoBoth ∨
      growth s a n = .bothOverBreak)

instance (s : State) (a n : Nat) : Decidable (MergesDown s a n) :=
  inferInstanceAs (Decidable (_ ∧ _))

/-- The block `b` has grown to `n` bytes behind the pointer `q`: the list is that of
the new tiling, the other payloads are as they were, and so is that of `b`. -/
structure GrownDown (s : State) (blocks : List Block) (b : Block) (n q : Nat) (t : State)
    (new : List Block) : Prop where
  tiled : Tiled t new
  grown : ∃ c ∈ new, c.free = false ∧ q = c.address + 32 ∧ n ≤ c.size
  others : ∀ o ∈ owned blocks s.maps, o.1 ≠ b.address + 32 →
    o ∈ owned new t.maps ∧ ∀ x, o.1 ≤ x → x < o.1 + o.2 → t.bytes x = s.bytes x
  carried : ∀ i, i < b.size → t.bytes (q + i) = s.bytes (b.address + 32 + i)

/-- A well-formed heap in an address space, with its mappings, is sound. -/
theorem WellFormed.sound (formed : WellFormed s blocks) (grounded : Grounded s)
    (mappings : Mappings s) : Sound s blocks where
  tiled := formed.tiled grounded
  wilderness := formed.wilderness
  shown := fun b member foot => (formed.agree b member) ▸ foot
  mappings := mappings

/-- A test of the state that a run of small blocks ends in, and of its blocks. -/
theorem modest_test (launch : Launch) (calls : List Call) (known : List Block)
    (test : State → Bool) (aligned : launch.brk % 8 = 0) (modest : During launch Modest calls)
    (tested : (run launch calls).toOption.map
      (fun sys => decide (surveyed sys.state = known) && test sys.state) = some true) :
    ∃ sys, run launch calls = .ok sys ∧ WellFormed sys.state known ∧ Grounded sys.state ∧
      Mappings sys.state ∧ test sys.state = true := by
  obtain ⟨sys, reached, blocks, held, exact⟩ := modest_run launch aligned modest
  rw [reached] at tested
  obtain ⟨same, passed⟩ := Bool.and_eq_true_iff.mp (Option.some.inj tested)
  have whole : blocks = known :=
    held.tiled.surveyed.symm.trans (of_decide_eq_true same)
  exact ⟨sys, reached, whole ▸ held.well_formed exact, held.tiled.toGrounded, held.mappings, passed⟩

/-- When the payload is at most 48 bytes longer than the free block before it, growing
into that block keeps the list, the payload and everything else exactly when the
assertion that precedes the extension of all three blocks holds. -/
theorem grows_down_iff (formed : WellFormed s blocks) (grounded : Grounded s) (mappings : Mappings s)
    (place : blocks = more ++ [p] ++ b :: post) (live : b.free = false) (larger : b.size < n)
    (even : n % 8 = 0) (request : n < 2 ^ 63) (merges : MergesDown s b.address n)
    (spared : movedLength s b.address n ≤ p.size + 48) :
    (∃ q t new, Returns (tryMergeRealloc b.address n) s q t ∧ GrownDown s blocks b n q t new) ↔
      (growth s b.address n = .bothOverBreak → extension s b.address n % 8 = 0) := by
  have sound := formed.sound grounded mappings
  subst place
  obtain ⟨⟨somewhere, granted⟩, way⟩ := merges
  have before : previousSize s b.address = p.size := sound.tiled.previousSize_eq
  have attempted := tryMergeRealloc_attempted sound.tiled live sound.wilderness
    (fun c member => sound.shown c (by simp at member ⊢; tauto)) mappings.apart larger request even
    fun overlaps => absurd overlaps.2 (by omega)
  cases attempted with
  | without nowhere => exact absurd nowhere somewhere
  | made _ attempt =>
    -- Of the ways into the block before it only the last has an assertion.
    have asserts : Uneven s (extension s b.address n) (growth s b.address n) ↔
        growth s b.address n = .bothOverBreak ∧ extension s b.address n % 8 ≠ 0 := by
      rcases way with way | way | way | way <;> simp [way, Uneven]
    cases attempt with
    | refused positive denied =>
      exact (granted.elim (fun none => by omega) denied).elim
    | failed _ uneven run =>
      obtain ⟨both, odd⟩ := asserts.mp uneven
      exact iff_of_false (fun ⟨_, _, _, returned, _⟩ => run.not_returns returned) fun whole =>
        odd (whole both)
    | grown _ holds t new c run enlarged sized _ =>
      obtain ⟨rest, _, after⟩ := enlarged.used
      obtain ⟨member, used⟩ := mem_inUse.mp (after.mem_iff.mpr (List.mem_cons_self))
      have covers : n ≤ c.size := sized ▸ Nat.le_max_left _ _
      refine iff_of_true ⟨c.address + 32, t, new, run, enlarged.tiled, ⟨c, member, used, rfl, covers⟩,
        fun o listed other => ?_, fun i inside => ?_⟩ fun both => ?_
      · exact (enlarged.exchange sound).others listed (by simpa using other)
      · exact enlarged.carried i inside (by simp only; omega)
      · by_contra odd
        exact holds (asserts.mpr ⟨both, odd⟩)

/-- A block of 8 bytes grows to 104 in the one of 200 bytes before it, which was
freed. -/
theorem grows_down_iff_sample : ∃ sys q t new,
    run (pageLaunch [.grant 0 (fun _ => 1), .grant 0 (fun _ => 2), .grant 0 (fun _ => 3)])
      [.smalloc 200, .smalloc 8, .smalloc 8, .sfree 4128] = .ok sys ∧
    Returns (tryMergeRealloc 4360 104) sys.state q t ∧
    GrownDown sys.state [⟨4096, 200, true, true⟩, ⟨4360, 8, false, false⟩, ⟨4432, 8, false, false⟩]
      ⟨4360, 8, false, false⟩ 104 q t new := by
  obtain ⟨sys, reached, formed, grounded, mappings, test⟩ := modest_test
    (pageLaunch [.grant 0 (fun _ => 1), .grant 0 (fun _ => 2), .grant 0 (fun _ => 3)])
    [.smalloc 200, .smalloc 8, .smalloc 8, .sfree 4128]
    ([] ++ [⟨4096, 200, true, true⟩] ++ ⟨4360, 8, false, false⟩ :: [⟨4432, 8, false, false⟩])
    (fun s => MergesDown s 4360 104 ∧ movedLength s 4360 104 ≤ 248 ∧ extension s 4360 104 % 8 = 0)
    (by decide) (by decide +kernel) (by decide +kernel)
  obtain ⟨merges, spared, whole⟩ := of_decide_eq_true test
  obtain ⟨q, t, new, returned, grown⟩ := (grows_down_iff formed grounded mappings rfl rfl (by decide)
    (by decide) (by decide) merges spared).mpr fun _ => whole
  exact ⟨sys, q, t, new, reached, returned, grown⟩

/-- A resize to 264 bytes of the block at 4168 that does not return. -/
def overrun (s : State) : Bool :=
  decide (MergesDown s 4168 264) && (tryMergeRealloc 4168 264 s).toOption.isNone

/-- A long payload moves down over the links of its own old header. -/
theorem payload_overruns_links : ¬∀ (s : State) (blocks more post : List Block) (p b : Block) (n : Nat),
    WellFormed s blocks → Grounded s → Mappings s → blocks = more ++ [p] ++ b :: post →
      b.free = false → b.size < n → n % 8 = 0 → n < 2 ^ 63 → MergesDown s b.address n →
      ∃ q t new, Returns (tryMergeRealloc b.address n) s q t ∧ GrownDown s blocks b n q t new := by
  intro always
  obtain ⟨sys, _, formed, grounded, mappings, test⟩ := modest_test
    (pageLaunch [.grant 0 (fun _ => 0), .grant 0 (fun _ => 0), .grant 0 (fun _ => 0)])
    [.smalloc 8, .smalloc 200, .smalloc 8, .sfree 4128]
    ([] ++ [⟨4096, 8, true, true⟩] ++ ⟨4168, 200, false, false⟩ :: [⟨4432, 8, false, false⟩])
    overrun (by decide) (by decide +kernel) (by decide +kernel)
  obtain ⟨merges, stops⟩ := Bool.and_eq_true_iff.mp test
  obtain ⟨q, t, new, returned, _⟩ := always sys.state _ _ _ _ _ 264 formed grounded mappings rfl rfl
    (by decide) (by decide) (by decide) (of_decide_eq_true merges)
  rw [show tryMergeRealloc 4168 264 sys.state = _ from returned] at stops
  exact absurd stops (by simp [Except.toOption])

end OperatingSystems.Malloc3
