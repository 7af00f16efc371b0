import OperatingSystems.Malloc3.Steps

/-!
# What safe runs keep

Runs of requests, frees and resizes in any direction, in which every resize is
safe. The wilderness stays the last block, so growing it never reaches into a
block in use. As long as nothing large is freed into the heap, `munmap` only
gets mappings. As long as no cut is odd, every size stays a multiple of 8 and no
assertion about it fails. Each of the three is lost by a short run without its
condition.
-/

namespace OperatingSystems.Malloc3

open Bytes Process MallocMetadata Tiling Payloads Runs

variable {sys next : System} {old new blocks : List Block} {call : Call} {p n : Nat} {s t : State}

/-- The client passes only pointers it holds, and every resize is safe. It may free large
blocks, for which `munmap` is called on the heap. -/
def Safe (call : Call) (sys : System) : Prop := Legal call sys ∧ SafeCall call sys

instance (call : Call) (sys : System) : Decidable (Safe call sys) :=
  inferInstanceAs (Decidable (_ ∧ _))

/-- Nothing is held at the launch. -/
theorem Launch.occupied (launch : Launch) (aligned : launch.brk % 8 = 0) :
    Occupied launch.system [] :=
  ⟨launch.held aligned, by simp [Launch.system]⟩

/-- A safe run stays in sound states. -/
theorem safe_run (launch : Launch) (aligned : launch.brk % 8 = 0) {calls : List Call}
    (safe : During launch Safe calls) :
    Ends (fun sys => ∃ blocks, Occupied sys blocks) (fun _ => True) (run launch calls) := by
  refine execute_ends (fun call sys invariant allowed => ?_) ⟨[], launch.occupied aligned⟩ safe
  obtain ⟨old, occupied⟩ := invariant
  cases occupied.perform allowed.1 allowed.2 with
  | returned next new step after _ _ _ =>
    rw [step]
    exact ⟨new, after⟩
  | stopped fault step _ =>
    rw [step]
    trivial

/-- A safe call that frees nothing large into the heap. What `munmap` gets is a whole
mapping then, never pages of the heap, which the process would lose. -/
def Clean (call : Call) (sys : System) : Prop := Safe call sys ∧ SmallCall call sys

instance (call : Call) (sys : System) : Decidable (Clean call sys) :=
  inferInstanceAs (Decidable (_ ∧ _))

/-- A clean call leaves a sound state, and only mappings went to `munmap`. -/
theorem clean_step (occupied : Occupied sys old) (none : sys.state.strayUnmaps = [])
    (clean : Clean call sys) :
    Ends (fun sys => (∃ blocks, Occupied sys blocks) ∧ sys.state.strayUnmaps = []) (fun _ => True)
      (perform call sys) := by
  cases occupied.perform clean.1.1 clean.1.2 with
  | returned next new step after _ strays _ =>
    rw [step]
    exact ⟨⟨new, after⟩, (strays clean.2).trans none⟩
  | stopped fault step _ =>
    rw [step]
    trivial

/-- So does a run of clean calls. -/
theorem clean_run (launch : Launch) (aligned : launch.brk % 8 = 0) {calls : List Call}
    (clean : During launch Clean calls) :
    Ends (fun sys => (∃ blocks, Occupied sys blocks) ∧ sys.state.strayUnmaps = []) (fun _ => True)
      (run launch calls) :=
  execute_ends (fun _ _ ⟨⟨_, occupied⟩, clear⟩ allowed => clean_step occupied clear allowed)
    ⟨⟨[], launch.occupied aligned⟩, rfl⟩ clean

/-- The wilderness is the block that ends at the break, and what `smalloc` hands
out next is clear of everything the client holds. -/
structure Anchored (sys : System) (blocks : List Block) : Prop where
  isolated : Isolated sys blocks
  wilderness : blocks ≠ [] → ∃ b ∈ blocks,
    sys.state.globals.blockList.wilderness = b.address ∧ b.address + b.size + 64 = sys.state.brk
  fresh : ∀ n p t, Returns (smalloc n) sys.state p t → p ≠ 0 →
    ∀ e ∈ sys.live, p + n ≤ e.1 ∨ e.1 + e.2 ≤ p

/-- What `smalloc` hands out is clear of the payloads in use. -/
theorem Held.fresh (held : Held sys blocks) (run : Returns (Malloc3.smalloc n) sys.state p t)
    (handed : p ≠ 0) : ∀ e ∈ sys.live, p + n ≤ e.1 ∨ e.1 + e.2 ≤ p := by
  intro e member
  obtain ⟨q, u, new, same, served, _⟩ := smalloc_served held.toSound n
  obtain ⟨rfl, rfl⟩ := same.unique run
  cases served with
  | refused _ null _ _ => exact absurd null handed
  | granted _ capacity fits transfer =>
    obtain ⟨o, listed, start, room⟩ := held.backed.payload member
    obtain ⟨rest, before, after, _⟩ := transfer.ledger
    have inRest : o ∈ rest := by simpa using before.mem_iff.mp listed
    have separate := (List.pairwise_cons.mp (transfer.sound.separate.perm after Or.symm)).1 o inRest
    simp only at separate
    omega

/-- In a sound state the wilderness is the last block. -/
theorem Held.anchored (held : Held sys blocks) : Anchored sys blocks where
  isolated := held.isolated
  wilderness := by
    intro occupied
    obtain ⟨pre, b, rfl⟩ := (List.eq_nil_or_concat blocks).resolve_left occupied
    rw [List.concat_eq_append] at *
    refine ⟨b, by simp, ?_, held.tiled.place.2.2⟩
    rw [held.wilderness]
    simp
  fresh := fun _ _ _ run handed => held.fresh run handed

/-- In every state that a safe run reaches, the wilderness is the last block. -/
theorem runs_anchor (launch : Launch) (aligned : launch.brk % 8 = 0) (calls : List Call)
    (safe : During launch Safe calls) :
    Ends (fun sys => ∃ blocks, Anchored sys blocks) (fun _ => True) (run launch calls) :=
  (safe_run launch aligned safe).mono fun _ ⟨blocks, occupied⟩ => ⟨blocks, occupied.toHeld.anchored⟩

/-- A launch for which the system has memory: five times more heap, and two
mappings. -/
def amply : Launch :=
  pageLaunch [.grant 0 (fun _ => 1), .grant 0 (fun _ => 2), .grant 0 (fun _ => 3),
    .grant 0 (fun _ => 4), .grant 0 (fun _ => 5), .grant 8192 (fun _ => 0), .grant 212992 (fun _ => 0)]

-- The runs of the samples are irreducible: they are run by the kernel only, not
-- whenever a type that mentions one is elaborated.

/-- A block grows into the free one before it, the last one grows past the break
and the first one has to move; a mapping is resized in place and then moves. -/
@[irreducible] def resizes : List Call :=
  [.smalloc 200, .smalloc 8, .smalloc 8, .sfree 4128, .srealloc 4392 100, .store 4140 7,
    .srealloc 4464 1000, .srealloc 4128 2000, .sfree 4464, .smalloc 200000, .srealloc 8224 199990,
    .srealloc 8224 200001, .sfree 213024]

/-- All these calls are safe, and the run reaches its end. -/
theorem runs_anchor_sample : (run amply resizes).toOption.isSome = true ∧
    Ends (fun sys => ∃ blocks, Anchored sys blocks) (fun _ => True) (run amply resizes) :=
  ⟨by decide +kernel, runs_anchor amply (by decide) resizes (by decide +kernel)⟩

/-- A client that passes only pointers to blocks of the heap below the threshold. -/
def OnSmallBlocks (call : Call) (sys : System) : Prop :=
  Legal call sys ∧
    match call with
    | .smalloc n => roundUp n < MMAP_THRESHOLD
    | .scalloc num n => roundUp (wrap (num * n)) < MMAP_THRESHOLD
    | .sfree p | .srealloc p _ => p = 0 ∨ (OnHeap sys.state p ∧ blockSize sys.state p < MMAP_THRESHOLD)
    | .store _ _ => True

instance (call : Call) (sys : System) : Decidable (OnSmallBlocks call sys) :=
  match call with
  | .smalloc n => inferInstanceAs (Decidable (Legal (.smalloc n) sys ∧ roundUp n < MMAP_THRESHOLD))
  | .scalloc num n =>
    inferInstanceAs (Decidable (Legal (.scalloc num n) sys ∧ roundUp (wrap (num * n)) < MMAP_THRESHOLD))
  | .sfree p => inferInstanceAs (Decidable (Legal (.sfree p) sys ∧
      (p = 0 ∨ (OnHeap sys.state p ∧ blockSize sys.state p < MMAP_THRESHOLD))))
  | .srealloc p n => inferInstanceAs (Decidable (Legal (.srealloc p n) sys ∧
      (p = 0 ∨ (OnHeap sys.state p ∧ blockSize sys.state p < MMAP_THRESHOLD))))
  | .store a byte => inferInstanceAs (Decidable (Legal (.store a byte) sys ∧ True))

/-- The wilderness ends at the break, by its header. -/
def wildernessEnds (s : State) : Bool :=
  s.brk = s.heapStart ∨ s.globals.blockList.wilderness +
    size s.bytes s.globals.blockList.wilderness + 64 = s.brk

theorem Anchored.ends (anchored : Anchored sys blocks) : wildernessEnds sys.state = true := by
  have tiled := anchored.isolated.tiled
  unfold wildernessEnds
  apply decide_eq_true
  by_cases empty : blocks = []
  · subst empty
    have ends : sys.state.heapStart = sys.state.brk := tiled.tiles
    exact Or.inl ends.symm
  · obtain ⟨b, member, same, ends⟩ := anchored.wilderness empty
    rw [same, (tiled.stored b member).size]
    exact Or.inr ends

/-- The first of two blocks grows into the last, which is free. -/
@[irreducible] def growIntoLast : List Call :=
  [.smalloc 8, .smalloc 8, .sfree 4200, .srealloc 4128 80, .store 4168 9]

/-- The block before a free wilderness grows into it. The pointer to it stays, and
the client soon writes over the header there. -/
theorem run_leaves_wilderness : ¬∀ (launch : Launch) (calls : List Call),
    launch.brk % 8 = 0 → During launch OnSmallBlocks calls →
      Ends (fun sys => ∃ blocks, Anchored sys blocks) (fun _ => True) (run launch calls) := by
  intro always
  have within : During (pageLaunch [.grant 0 (fun _ => 1), .grant 0 (fun _ => 2)]) OnSmallBlocks
      growIntoLast := by decide +kernel
  refine not_ends (fun sys => wildernessEnds sys.state) (fun _ ⟨_, anchored⟩ => anchored.ends) ?_
    (always _ _ (by decide) within)
  decide +kernel

/-- Every size in the heap and every pointer into it is a multiple of 8. -/
structure Even (sys : System) (blocks : List Block) : Prop where
  isolated : Isolated sys blocks
  sizes : Aligned blocks
  pointers : ∀ e ∈ sys.live, OnHeap sys.state e.1 → e.1 % 8 = 0

/-- The blocks of an aligned heap start at multiples of 8. -/
theorem Tiled.address_even (tiled : Tiled s blocks) (aligned : Aligned blocks) {b : Block}
    (member : b ∈ blocks) : b.address % 8 = 0 := by
  obtain ⟨pre, post, rfl⟩ := List.append_of_mem member
  rw [(aligned_append.mp aligned).1.length tiled.place.1]
  exact tiled.aligned

/-- Pointers to aligned blocks are aligned. -/
theorem Held.even (held : Held sys blocks) (aligned : Aligned blocks) : Even sys blocks where
  isolated := held.isolated
  sizes := aligned
  pointers := by
    intro e member place
    obtain ⟨o, listed, start, _⟩ := held.backed.payload member
    obtain ⟨b, inHeap, _, rfl⟩ := (held.toSound.onHeap_iff listed).mp (start.symm ▸ place)
    have even := held.tiled.address_even aligned inHeap
    simp only at start
    omega

/-- In every safe run whose cuts are all at multiples of 8, every size and every
pointer stays a multiple of 8, and no assertion fails. -/
theorem runs_stay_even (launch : Launch) (aligned : launch.brk % 8 = 0) (calls : List Call)
    (even : During launch (fun call sys => Safe call sys ∧ EvenCall call sys) calls) :
    Ends (fun sys => ∃ blocks, Even sys blocks) (fun fault => fault ≠ .assertion)
      (run launch calls) := by
  refine (execute_ends (I := fun sys => ∃ blocks, Occupied sys blocks ∧ Aligned blocks)
    (fun call sys invariant allowed => ?_) ⟨[], launch.occupied aligned, aligned_nil⟩ even).mono
    fun _ ⟨blocks, occupied, sizes⟩ => ⟨blocks, occupied.toHeld.even sizes⟩
  obtain ⟨old, occupied, sizes⟩ := invariant
  cases occupied.perform allowed.1.1 allowed.1.2 with
  | returned next new step after _ _ keeps =>
    rw [step]
    exact ⟨new, after, keeps allowed.2 sizes⟩
  | stopped fault step odd =>
    rw [step]
    exact fun asserts => odd asserts sizes

/-- No block is cut in the run above. -/
theorem runs_stay_even_sample : (run amply resizes).toOption.isSome = true ∧
    Ends (fun sys => ∃ blocks, Even sys blocks) (fun fault => fault ≠ .assertion)
      (run amply resizes) :=
  ⟨by decide +kernel, runs_stay_even amply (by decide) resizes (by decide +kernel)⟩

/-- A block is cut at 13 bytes; the block cut off is taken whole and then grows. -/
@[irreducible] def cutAtThirteen : List Call :=
  [.smalloc 1000, .srealloc 4128 13, .smalloc 920, .srealloc 4205 1000]

/-- After a cut at an odd size the assertions about sizes fail. -/
theorem run_asserts : ¬∀ (launch : Launch) (calls : List Call),
    launch.brk % 8 = 0 → During launch Legal calls →
      Ends (fun sys => ∃ blocks, Even sys blocks) (fun fault => fault ≠ .assertion)
        (run launch calls) := by
  intro always
  have within : During (pageLaunch [.grant 0 (fun _ => 1), .grant 0 (fun _ => 2)]) Legal
      cutAtThirteen := by decide +kernel
  refine not_ends_fault (e := .assertion) ?_ (fun differs => differs rfl) (always _ _ (by decide) within)
  decide +kernel

/-- In every safe run in which every block of the heap that reaches `sfree` is
smaller than the threshold, `munmap` only gets whole mappings. -/
theorem runs_unmap_mappings (launch : Launch) (aligned : launch.brk % 8 = 0) (calls : List Call)
    (small : During launch (fun call sys => Safe call sys ∧ SmallCall call sys) calls) :
    Ends (fun sys => sys.state.strayUnmaps = []) (fun _ => True) (run launch calls) :=
  (clean_run launch aligned small).mono fun _ invariant => invariant.2

/-- Its blocks of the heap are small, and its mapping is unmapped whole. -/
theorem runs_unmap_mappings_sample : (run amply resizes).toOption.isSome = true ∧
    Ends (fun sys => sys.state.strayUnmaps = []) (fun _ => True) (run amply resizes) :=
  ⟨by decide +kernel, runs_unmap_mappings amply (by decide) resizes (by decide +kernel)⟩

/-- Two free neighbours are handed out as one block, which is freed. -/
@[irreducible] def freeLarge : List Call :=
  [.smalloc 65504, .smalloc 65504, .sfree 4128, .sfree 69696, .smalloc 131000, .sfree 4128]

/-- A block of the heap that has become as large as the threshold goes to `munmap`. -/
theorem run_unmaps_heap : ¬∀ (launch : Launch) (calls : List Call),
    launch.brk % 8 = 0 → During launch Legal calls →
      Ends (fun sys => sys.state.strayUnmaps = []) (fun _ => True) (run launch calls) := by
  intro always
  have within : During (pageLaunch [.grant 0 (fun _ => 1), .grant 0 (fun _ => 2)]) Legal
      freeLarge := by decide +kernel
  refine not_ends (fun sys => sys.state.strayUnmaps = []) (fun _ none => decide_eq_true none) ?_
    (always _ _ (by decide) within)
  decide +kernel

end OperatingSystems.Malloc3
