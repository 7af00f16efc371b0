import OperatingSystems.Malloc3.Ownership

/-!
# The calls of the allocator

What each call does to a sound state, as a transfer of payloads: a request
hands one out or fails and changes nothing, `sfree` takes one back, and a
shrinking `srealloc` takes one back and hands out a smaller one at the same
address.
-/

namespace OperatingSystems.Malloc3

open Bytes Process MallocMetadata Tiling Payloads

variable {s t : State} {old new blocks : List Block} {address n p : Nat} {region : Nat × Nat}

/-- A header inside a mapping is accessible. -/
theorem Mappings.mapped (mappings : Mappings s) (member : region ∈ s.maps) :
    s.Mapped region.1 32 := by
  have := mappings.length member
  exact Or.inr (Or.inr ⟨region, member, Nat.le_refl _, by omega⟩)

/-- Removing a mapping leaves the payload sum of the others. -/
theorem mappedPayloads_erase {maps : List (Nat × Nat)} (member : region ∈ maps) :
    mappedPayloads maps = region.2 - 32 + mappedPayloads (maps.erase region) := by
  have perm := List.perm_cons_erase member
  exact (perm.map fun region => region.2 - 32).sum_nat

/-- The fields a new mapping is given. -/
theorem mapped_fields (s : State) (address : Nat) (small : n < 2 ^ 64) :
    size (mapped s address n).bytes address = n ∧
      isFree (mapped s address n).bytes address = false ∧
      Set.EqOn (mapped s address n).bytes s.bytes (cells address (n + 32))ᶜ :=
  mapping_fields s.bytes address small

/-- A new mapping is handed out. -/
theorem Sound.mapped (sound : Sound s blocks) (can : s.CanMap address (n + 32))
    (large : MMAP_THRESHOLD ≤ n) :
    Transfer s blocks (mapped s address n) blocks [] [(address + 32, n)] := by
  obtain ⟨proper, page, bounded, beside, clear⟩ := can
  obtain ⟨sized, flag, frame⟩ := mapped_fields s address (n := n) (by omega)
  have separate : ∀ region ∈ s.maps, ∀ x, region.1 ≤ x → x < region.1 + region.2 →
      x ∉ cells address (n + 32) := by
    intro region member x low high
    have := clear region member
    simp only [mem_cells]
    omega
  have holds : ∀ region ∈ s.maps, HoldsBlock (Malloc3.mapped s address n).bytes region := by
    intro region member
    have length := sound.mappings.length member
    exact (sound.mappings.holds region member).frame frame fun x low high =>
      separate region member x low (by omega)
  refine ⟨⟨?_, sound.wilderness, sound.shown, ?_, ?_, ?_⟩, ?_⟩
  · refine sound.tiled.outside rfl rfl rfl rfl (frame.mono ?_)
    rintro x ⟨low, high⟩ inside
    simp only [mem_cells] at inside
    omega
  · refine List.forall_mem_cons.mpr ⟨?_, sound.mappings.apart⟩
    exact beside
  · refine List.forall_mem_cons.mpr ⟨⟨proper, page, ?_, flag, ?_, by omega⟩, holds⟩
    · exact congrArg (· + 32) sized
    · exact large.trans (Nat.le_of_eq sized.symm)
  · refine List.pairwise_cons.mpr ⟨fun region member => ?_, sound.mappings.separate⟩
    exact (clear region member).symm
  · refine ⟨owned blocks s.maps, List.Perm.refl _, ?_, ?_⟩
    · simp only [owned, Malloc3.mapped, List.map_cons, Nat.add_sub_cancel]
      exact List.perm_middle
    rintro x ⟨o, member, low, high⟩
    refine frame fun inside => ?_
    simp only [mem_cells] at inside
    rcases mem_owned.mp member with ⟨b, listed, _, rfl⟩ | ⟨region, listed, rfl⟩
    · have := sound.within listed
      simp only at low high
      omega
    · have := sound.mappings.length listed
      simp only at low high
      exact separate region listed x (by omega) (by omega) (mem_cells.mpr inside)

/-- A new mapping is counted. -/
theorem Keeps.mapped (s : State) (blocks : List Block) (address n : Nat) :
    Keeps s blocks (mapped s address n) blocks where
  coalesced := id
  counters := by
    intro exact
    simp only [Malloc3.mapped, exact]
    refine tally_update ?_ ?_ ?_ ?_ ?_ <;> simp <;> omega
  strays := rfl

/-- The state after a mapping was given back. -/
def unmapped (s : State) (region : Nat × Nat) : State :=
  { s with
    maps := s.maps.erase region
    bytes := setFree s.bytes region.1 true
    globals := { s.globals with
      statistics := s.globals.statistics.update (-1) 0 (-(region.2 - 32 : Nat)) 0 (-(2 * 32)) } }

/-- `sfree` on a mapping unmaps exactly that mapping; nothing else matters to it. -/
theorem sfree_holding (holds : HoldsBlock s.bytes region) (member : region ∈ s.maps) :
    Returns (sfree (region.1 + 32)) s () (unmapped s region) := by
  have sized := holds.sized
  have large := holds.large
  have bounded := holds.bounded
  have header : s.Mapped region.1 32 :=
    Or.inr (Or.inr ⟨region, member, Nat.le_refl _, by omega⟩)
  have sizeNow : size (setFree s.bytes region.1 true) region.1 = region.2 - 32 := by
    refine (size_frame setFree_outside fun x low high => ?_).trans (by omega)
    simp only [mem_cells]
    omega
  have fits : wrap (region.2 - 32 + 32) = region.2 := by
    rw [Nat.sub_add_cancel (by omega)]
    exact wrap_eq (by omega)
  unfold sfree
  apply Returns.ifNeg (by omega)
  simp only [SOM, Nat.add_sub_cancel]
  apply Returns.bind ((readFree_returns header).to holds.live)
  refine Returns.ifNeg (by simp) (Returns.bind (writeFree_returns header) ?_)
  apply Returns.bind (Returns.to (readSize_returns (by exact header)) sizeNow)
  refine Returns.ifNeg (by omega) (Returns.bind updateStatistics_returns ?_)
  rw [fits]
  exact munmap_returns member

theorem sfree_mapping (mappings : Mappings s) (member : region ∈ s.maps) :
    Returns (sfree (region.1 + 32)) s () (unmapped s region) :=
  sfree_holding (mappings.holds region member) member

/-- A mapping is taken back. -/
theorem Sound.unmapped (sound : Sound s blocks) (member : region ∈ s.maps) :
    Transfer s blocks (unmapped s region) blocks [(region.1 + 32, region.2 - 32)] [] := by
  have length := sound.mappings.length member
  have apart := sound.mappings.apart region member
  have subset : s.maps.erase region ⊆ s.maps := List.erase_subset
  have frame : Set.EqOn (Malloc3.unmapped s region).bytes s.bytes (cells (region.1 + 8) 1)ᶜ :=
    setFree_outside
  have perm := List.perm_cons_erase member
  have ledger : (owned blocks s.maps).Perm
      ((region.1 + 32, region.2 - 32) :: owned blocks (s.maps.erase region)) := by
    refine ((perm.map _).append_left _).trans ?_
    exact List.perm_middle
  have clear : ∀ other ∈ s.maps.erase region,
      other.1 + other.2 ≤ region.1 ∨ region.1 + region.2 ≤ other.1 := by
    have separate := List.pairwise_cons.mp (sound.mappings.separate.perm perm Or.symm)
    exact fun other listed => (separate.1 other listed).symm
  refine ⟨⟨?_, sound.wilderness, sound.shown, ?_, ?_, ?_⟩, ⟨_, ledger, List.Perm.refl _, ?_⟩⟩
  · refine sound.tiled.outside rfl rfl rfl rfl (frame.mono ?_)
    rintro x ⟨low, high⟩ inside
    simp only [mem_cells] at inside
    omega
  · exact fun other listed => sound.mappings.apart other (subset listed)
  · intro other listed
    have := sound.mappings.length (subset listed)
    have beside := clear other listed
    refine (sound.mappings.holds other (subset listed)).frame frame fun x low high => ?_
    simp only [mem_cells]
    omega
  · exact sound.mappings.separate.sublist List.erase_sublist
  · intro x here
    have before := payloadCells_mono (fun o listed =>
      ledger.mem_iff.mpr (List.mem_cons_of_mem _ listed)) here
    refine frame fun inside => ?_
    simp only [mem_cells] at inside
    exact Set.disjoint_left.mp sound.clear before (Or.inr ⟨region, member, by omega⟩)

/-- A mapping that was taken back is no longer counted. -/
theorem Keeps.unmapped (blocks : List Block) (member : region ∈ s.maps) :
    Keeps s blocks (unmapped s region) blocks where
  coalesced := id
  counters := by
    intro exact
    have length := List.length_erase_of_mem member
    have positive := List.length_pos_of_mem member
    have bytes := mappedPayloads_erase member
    simp only [Malloc3.unmapped, exact]
    refine tally_update ?_ ?_ ?_ ?_ ?_ <;> omega
  strays := rfl

/-- The bytes of payloads may change without notice. -/
theorem Sound.write (sound : Sound s blocks) {bytes : Memory} {changed : Set Nat}
    (frame : Set.EqOn bytes s.bytes changedᶜ)
    (inside : changed ⊆ payloadCells (owned blocks s.maps)) :
    Sound (s.withBytes bytes) blocks := by
  have clear : ∀ x ∈ metadata blocks s.maps, x ∉ changed := fun x record here =>
    Set.disjoint_left.mp sound.clear (inside here) record
  refine ⟨sound.tiled.recorded rfl rfl rfl rfl fun x record => frame (clear x (Or.inl record)),
    sound.wilderness, sound.shown, sound.mappings.apart, fun region member => ?_,
    sound.mappings.separate⟩
  exact (sound.mappings.holds region member).frame frame fun x low high =>
    clear x (Or.inr ⟨region, member, low, high⟩)

theorem Keeps.write (s : State) (blocks : List Block) (bytes : Memory) :
    Keeps s blocks (s.withBytes bytes) blocks := ⟨id, id, rfl⟩

/-- A payload is accessible. -/
theorem Sound.payload_mapped (sound : Sound s blocks) {o : Nat × Nat}
    (member : o ∈ owned blocks s.maps) : s.Mapped o.1 o.2 := by
  rcases mem_owned.mp member with ⟨b, listed, _, rfl⟩ | ⟨region, listed, rfl⟩
  · have := sound.within listed
    exact Machine.mapped_heap (by simp only; omega) (by simp only; omega)
  · have := sound.mappings.length listed
    exact Or.inr (Or.inr ⟨region, listed, by simp only; omega, by simp only; omega⟩)

/-- The pointer lies in the part of memory that `sbrk` grants. -/
def OnHeap (s : State) (p : Nat) : Prop := s.heapStart ≤ p ∧ p < s.brk

/-- The payload size in the header of a pointer. -/
def blockSize (s : State) (p : Nat) : Nat := size s.bytes (p - 32)

instance (s : State) (p : Nat) : Decidable (OnHeap s p) := inferInstanceAs (Decidable (_ ∧ _))

/-- The pointer of a block lies on the heap, behind a header with its size. -/
theorem Sound.onHeap (sound : Sound s blocks) {b : Block} (member : b ∈ blocks) :
    OnHeap s (b.address + 32) ∧ blockSize s (b.address + 32) = b.size := by
  have := sound.within member
  exact ⟨⟨by omega, by omega⟩, (sound.tiled.stored b member).size⟩

/-- The pointer of a mapping lies outside the heap. -/
theorem Sound.offHeap (sound : Sound s blocks) {region : Nat × Nat} (member : region ∈ s.maps) :
    ¬OnHeap s (region.1 + 32) := by
  have := sound.mappings.apart region member
  have := sound.mappings.length member
  have : 0 < MMAP_THRESHOLD := by decide
  rintro ⟨low, high⟩
  omega

/-- A payload never starts at null. -/
theorem owned_proper {o : Nat × Nat} {maps : List (Nat × Nat)} (member : o ∈ owned blocks maps) :
    o.1 ≠ 0 := by
  rcases mem_owned.mp member with ⟨b, _, _, rfl⟩ | ⟨region, _, rfl⟩ <;> simp

/-- All memory of one process stays with the other. -/
structure Widens (s t : State) : Prop where
  heapStart : t.heapStart = s.heapStart
  grows : s.brk ≤ t.brk
  maps : s.maps ⊆ t.maps

theorem Widens.refl (s : State) : Widens s s := ⟨rfl, Nat.le_refl _, List.Subset.refl _⟩

theorem Widens.answered (s : State) : Widens s (answered s) :=
  ⟨rfl, Nat.le_refl _, List.Subset.refl _⟩

/-- What was accessible stays accessible. -/
theorem Widens.mapped (widens : Widens s t) {a k : Nat} (mapped : s.Mapped a k) : t.Mapped a k := by
  rcases mapped with none | ⟨low, high⟩ | ⟨region, member, inside⟩
  · exact Or.inl none
  · exact Or.inr (Or.inl ⟨widens.heapStart ▸ low, Nat.le_trans high widens.grows⟩)
  · exact Or.inr (Or.inr ⟨region, widens.maps member, inside⟩)

/-- A step of the heap gives no memory back. -/
theorem Evolves.widens (evolves : Evolves s old t new) : Widens s t :=
  ⟨evolves.heapStart, evolves.grows, evolves.maps ▸ List.Subset.refl _⟩

/-- What a request for `n` bytes comes to: nothing, or a payload of that size. -/
inductive Served (s : State) (old : List Block) (n p : Nat) (t : State) (new : List Block) : Prop
  | refused (denied : ¬Satisfiable s old n) (null : p = 0) (same : new = old)
      (after : t = s ∨ t = answered s)
  | granted (satisfied : Satisfiable s old n) (capacity : Nat) (fits : n ≤ capacity)
      (transfer : Transfer s old t new [] [(p, capacity)])

/-- The free blocks that are too small for the request keep their payloads, and
their headers the sizes, unless one of them became the block handed out. -/
def Sparing (s : State) (old : List Block) (n p : Nat) (t : State) : Prop :=
  ∀ m ∈ old, m.free = true → m.size < roundUp n →
    (p = m.address + 32 ∨ size t.bytes m.address = m.size) ∧
      ∀ x, m.address + 32 ≤ x → x < m.address + 32 + m.size → t.bytes x = s.bytes x

/-- Without a change of the heap's bytes every block is spared. -/
theorem Sound.sparing (sound : Sound s blocks)
    (same : Set.EqOn t.bytes s.bytes (Set.Ico s.heapStart s.brk)) : Sparing s blocks n p t := by
  intro m member _ _
  have place := sound.within member
  refine ⟨Or.inr ?_, fun x low high => same ⟨by omega, by omega⟩⟩
  have frame : Set.EqOn t.bytes s.bytes (Set.Ico s.heapStart s.brk)ᶜᶜ := by
    rwa [compl_compl]
  exact (size_frame frame fun x low high out => out ⟨by omega, by omega⟩).trans
    (sound.tiled.stored m member).size

/-- `smalloc`, on any sound state and with any answers of the system. -/
theorem smalloc_served (sound : Sound s blocks) (n : Nat) :
    ∃ p t new, Returns (smalloc n) s p t ∧ Served s blocks n p t new ∧ Sparing s blocks n p t ∧
      Widens s t ∧ (SmallRequest s n → Keeps s blocks t new) ∧ (Aligned blocks → Aligned new) := by
  by_cases outside : n = 0 ∨ 100000000 < n
  · obtain ⟨denied, run⟩ := smalloc_outside s blocks outside
    exact ⟨0, s, blocks, run, .refused denied rfl rfl (Or.inl rfl), sound.sparing fun _ _ => rfl,
      .refl s, fun _ => .refl s blocks, id⟩
  obtain ⟨larger, _, _⟩ := roundUp_le (n := n)
  by_cases small : roundUp n < MMAP_THRESHOLD
  · rcases smalloc_heap sound.tiled sound.wilderness sound.shown sound.mappings.apart
      (by omega) (by omega) small with
      ⟨denied, run⟩ | ⟨satisfied, t, new, c, run, allocated, fits, exactly⟩
    · exact ⟨0, _, blocks, run, .refused denied rfl rfl (Or.inr rfl), sound.sparing fun _ _ => rfl,
        .answered s, fun _ => ⟨id, id, rfl⟩, id⟩
    · have transfer := allocated.evolves.transfer sound
        (show (inUse blocks).Perm ([] ++ inUse blocks) from List.Perm.refl _)
        (show (inUse new).Perm ([c] ++ inUse blocks) from allocated.used)
      refine ⟨_, t, new, run, .granted satisfied c.size (larger.trans fits) transfer,
        fun m member free short => ?_, allocated.evolves.widens, fun guard => (exactly guard).keeps, allocated.aligned⟩
      obtain ⟨header, kept⟩ := allocated.spares m member free short
      exact ⟨header.imp_left fun same => by rw [same], kept⟩
  · rcases smalloc_large s blocks (by omega) (by omega) (Nat.not_lt.mp small) with
      ⟨denied, run⟩ | ⟨satisfied, address, run, can⟩
    · exact ⟨0, _, blocks, run, .refused denied rfl rfl (Or.inr rfl), sound.sparing fun _ _ => rfl,
        .answered s, fun _ => ⟨id, id, rfl⟩, id⟩
    · refine ⟨_, _, blocks, run,
        .granted satisfied (roundUp n) larger (sound.mapped can (Nat.not_lt.mp small)),
        sound.sparing ?_, ⟨rfl, Nat.le_refl _, List.subset_cons_self _ _⟩,
        fun _ => .mapped s blocks address (roundUp n), id⟩
      obtain ⟨_, _, frame⟩ := mapped_fields s address (n := roundUp n) (by omega)
      have clear := can.2.2.2.1
      refine frame.mono fun x inside => ?_
      have := inside.1
      have := inside.2
      simp only [Set.mem_compl_iff, mem_cells]
      omega

/-- The block that `smalloc` hands out has room for the rounded request. -/
theorem smalloc_room (sound : Sound s blocks) (run : Returns (smalloc n) s p t) (handed : p ≠ 0) :
    roundUp n ≤ size t.bytes (p - 32) := by
  by_cases outside : n = 0 ∨ 100000000 < n
  · exact absurd (run.unique (smalloc_outside s blocks outside).2).1 handed
  obtain ⟨larger, within, _⟩ := roundUp_le (n := n)
  by_cases small : roundUp n < MMAP_THRESHOLD
  · rcases smalloc_heap sound.tiled sound.wilderness sound.shown sound.mappings.apart
      (by omega) (by omega) small with
      ⟨_, refused⟩ | ⟨_, u, new, c, served, allocated, fits, _⟩
    · exact absurd (run.unique refused).1 handed
    · obtain ⟨rfl, rfl⟩ := run.unique served
      have member : c ∈ new := (mem_inUse.mp (allocated.used.mem_iff.mpr (by simp))).1
      rw [Nat.add_sub_cancel, (allocated.evolves.tiled.stored c member).size]
      exact fits
  · rcases smalloc_large s blocks (by omega) (by omega) (Nat.not_lt.mp small) with
      ⟨_, refused⟩ | ⟨_, address, served, _⟩
    · exact absurd (run.unique refused).1 handed
    · obtain ⟨rfl, rfl⟩ := run.unique served
      rw [Nat.add_sub_cancel, (mapped_fields s address (n := roundUp n) (by omega)).1]

/-- `scalloc` serves the wrapped product and zeroes what it returns. -/
theorem scalloc_served (sound : Sound s blocks) (num size : Nat) :
    ∃ p t new, Returns (scalloc num size) s p t ∧ Served s blocks (wrap (num * size)) p t new ∧
      (p ≠ 0 → ∀ x, p ≤ x → x < p + wrap (num * size) → t.bytes x = 0) ∧
      (SmallRequest s (wrap (num * size)) → Keeps s blocks t new) ∧
      (Aligned blocks → Aligned new) := by
  obtain ⟨n, product⟩ : ∃ n, n = wrap (num * size) := ⟨_, rfl⟩
  have swapped : wrap (size * num) = n := by rw [product, Nat.mul_comm]
  obtain ⟨p, t, new, run, served, _, _, exactly, aligned⟩ := smalloc_served sound n
  rw [← product]
  cases served with
  | refused denied null same after =>
    refine ⟨0, t, new, ?_, .refused denied rfl same after, by simp, exactly, aligned⟩
    unfold scalloc
    rw [← product]
    exact Returns.bind run (Returns.ifPos null Returns.pure)
  | granted satisfied capacity fits transfer =>
    obtain ⟨rest, before, now, kept⟩ := transfer.ledger
    have handed : (p, capacity) ∈ owned new t.maps := now.mem_iff.mpr (by simp)
    have proper : p ≠ 0 := owned_proper handed
    have frame : Set.EqOn (fill t.bytes p n 0) t.bytes (cells p n)ᶜ := fill_outside _ _ _ _
    have room := transfer.sound.payload_mapped handed
    refine ⟨p, t.withBytes (fill t.bytes p n 0), new, ?_,
      .granted satisfied capacity fits ⟨?_, ⟨rest, before, now, ?_⟩⟩, fun _ x low high => ?_,
      fun guard => (exactly guard).trans (.write t new _), aligned⟩
    · unfold scalloc
      rw [← product, swapped]
      exact Returns.bind run (Returns.ifNeg proper (Returns.bind (x := ())
        (memset_returns (room.sub (Nat.le_refl p) (by simp only; omega))) Returns.pure))
    · refine transfer.sound.write frame fun x inside => ⟨_, handed, ?_⟩
      simp only [mem_cells] at inside
      omega
    · intro x here
      refine (frame fun inside => ?_).trans (kept here)
      simp only [mem_cells] at inside
      -- The new payload is clear of those handed out before.
      obtain ⟨o, listed, low, high⟩ := here
      have separate := transfer.sound.separate.perm now Or.symm
      have := (List.pairwise_cons.mp separate).1 o listed
      omega
    · have place : x = p + (x - p) := by omega
      rw [place]
      exact fill_inside _ _ _ _ _ (by omega)

/-- Freeing a block below the threshold takes its payload back. -/
theorem Merged.transfer {pre post : List Block} {b : Block} (merged : Merged s pre b post t new)
    (sound : Sound s (pre ++ b :: post)) (live : b.free = false) :
    Transfer s (pre ++ b :: post) t new [(b.address + 32, b.size)] [] := by
  have before : (inUse (pre ++ b :: post)).Perm ([b] ++ (inUse pre ++ inUse post)) := by
    simp [live, List.perm_middle]
  have after : (inUse new).Perm ([] ++ (inUse pre ++ inUse post)) := by
    rw [merged.fuses.inUse]
    simp
  exact merged.evolves.toEvolves.transfer sound before after

/-- `sfree` on a block of the heap, whatever it takes the block for. -/
theorem sfree_heap (sound : Sound s blocks) {b : Block} (member : b ∈ blocks)
    (live : b.free = false) :
    ∃ t new, Returns (sfree (b.address + 32)) s () t ∧
      Transfer s blocks t new [(b.address + 32, b.size)] [] ∧
      (b.size < MMAP_THRESHOLD → Keeps s blocks t new) ∧ (Aligned blocks → Aligned new) := by
  obtain ⟨pre, post, rfl⟩ := List.append_of_mem member
  by_cases small : b.size < MMAP_THRESHOLD
  · obtain ⟨t, new, run, merged⟩ :=
      sfree_returns sound.tiled live small fun c listed => sound.shown c (by simp [listed])
    refine ⟨t, new, run, merged.transfer sound live, fun _ => merged.evolves.keeps,
      fun aligned => merged.fuses.aligned ?_⟩
    simpa using aligned
  · have outside : ∀ region ∈ s.maps, region.1 ≠ b.address := by
      intro region listed same
      have := sound.within member
      have := sound.mappings.apart region listed
      have := sound.mappings.length listed
      omega
    obtain ⟨t, run, evolves, _⟩ := sfree_stray_evolves sound.tiled live (Nat.not_lt.mp small) outside
    have before : (inUse (pre ++ b :: post)).Perm ([b] ++ (inUse pre ++ inUse post)) := by
      simp [live, List.perm_middle]
    have after : (inUse (pre ++ { b with free := true } :: post)).Perm
        ([] ++ (inUse pre ++ inUse post)) := by
      simp
    refine ⟨t, _, run, evolves.transfer sound before after, fun fits => absurd fits small,
      fun aligned => ?_⟩
    simpa using aligned

/-- The cut that ends a resize, when there is room for it. -/
theorem trim_returns (sound : Sound s blocks) {b : Block} (member : b ∈ blocks)
    (live : b.free = false) (positive : 0 < n) (request : n ≤ 100000000) (fits : n ≤ b.size) :
    ∃ t new capacity, Returns (doIf (splits b.size n) (splitLive n b.address)) s () t ∧
      n ≤ capacity ∧ Transfer s blocks t new [(b.address + 32, b.size)] [(b.address + 32, capacity)] ∧
      Carried s t (b.address + 32, b.size) (b.address + 32, capacity) ∧
      (SmallCut b.size n → Keeps s blocks t new) ∧
      ((splits b.size n → n % 8 = 0) → Aligned blocks → Aligned new) := by
  have bound := sound.within member
  have top := sound.tiled.small
  have whether := splits_iff (k := b.size) (n := n) (by omega) (by omega)
  obtain ⟨pre, post, rfl⟩ := List.append_of_mem member
  by_cases room : n + 192 ≤ b.size
  · have cut : wrapSub (wrapSub b.size n) (2 * SOM) = b.size - n - 64 :=
      upperSize_eq (by omega) (by omega)
    obtain ⟨t, new, run, evolves, used, aligned, exactly⟩ := splitLive_returns sound.tiled live room
      (fun c listed => sound.shown c (by simp [listed])) sound.mappings.apart
    have before : (inUse (pre ++ b :: post)).Perm ([b] ++ (inUse pre ++ inUse post)) := by
      simp [live, List.perm_middle]
    have after : (inUse new).Perm ([b.low n] ++ (inUse pre ++ inUse post)) := by
      rw [used]
      exact List.perm_middle
    have lower : b.low n ∈ new := (mem_inUse.mp (after.mem_iff.mpr (by simp))).1
    refine ⟨t, new, n, doIf_pos (whether.mpr room) run, Nat.le_refl n,
      evolves.transfer sound before after, evolves.carried sound member lower rfl,
      fun small => (exactly ?_).keeps, fun even => aligned (even (whether.mpr room))⟩
    have upper := small (whether.mpr room)
    rwa [cut] at upper
  · have listed : (b.address + 32, b.size) ∈ owned (pre ++ b :: post) s.maps :=
      mem_owned.mpr (Or.inl ⟨b, member, live, rfl⟩)
    have perm := List.perm_cons_erase listed
    exact ⟨s, _, b.size, doIf_neg (mt whether.mp room), fits,
      ⟨sound, _, perm, perm, fun _ _ => rfl⟩, fun _ _ _ => rfl, fun _ => .refl _ _, fun _ => id⟩

/-- The guard under which a resize makes no large cut. -/
def SmallTrim (blockSize n : Nat) : Prop := 0 < n → n ≤ 100000000 → SmallCut blockSize n

instance (blockSize n : Nat) : Decidable (SmallTrim blockSize n) :=
  inferInstanceAs (Decidable (_ → _ → _))

/-- The guard under which a resize cuts at a multiple of 8 only. -/
def EvenTrim (blockSize n : Nat) : Prop := 0 < n → n ≤ 100000000 → splits blockSize n → n % 8 = 0

instance (blockSize n : Nat) : Decidable (EvenTrim blockSize n) :=
  inferInstanceAs (Decidable (_ → _ → _ → _))

/-- `srealloc` of a block of the heap to a size it has room for. -/
theorem srealloc_heap (sound : Sound s blocks) {b : Block} (member : b ∈ blocks)
    (live : b.free = false) (fits : n ≤ b.size) :
    ∃ q t new, Returns (srealloc (b.address + 32) n) s q t ∧
      ((q = 0 ∧ t = s ∧ new = blocks ∧ (n = 0 ∨ 100000000 < n)) ∨
        (q = b.address + 32 ∧ ∃ capacity, n ≤ capacity ∧
          Transfer s blocks t new [(b.address + 32, b.size)] [(b.address + 32, capacity)] ∧
          Carried s t (b.address + 32, b.size) (b.address + 32, capacity))) ∧
      (SmallTrim b.size n → Keeps s blocks t new) ∧
      (EvenTrim b.size n → Aligned blocks → Aligned new) := by
  by_cases outside : n = 0 ∨ 100000000 < n
  · exact ⟨0, s, blocks, Returns.ifPos outside Returns.pure, Or.inl ⟨rfl, rfl, rfl, outside⟩,
      fun _ => .refl s blocks, fun _ => id⟩
  obtain ⟨t, new, capacity, run, enough, transfer, carried, exactly, aligned⟩ :=
    trim_returns sound member live (by omega) (by omega) fits
  have header := (sound.tiled.header_mapped member).1
  refine ⟨_, t, new, ?_, Or.inr ⟨rfl, capacity, enough, transfer, carried⟩,
    fun small => exactly (small (by omega) (by omega)),
    fun even => aligned (even (by omega) (by omega))⟩
  unfold srealloc
  refine Returns.ifNeg outside (Returns.ifNeg (by omega) ?_)
  simp only [SOM, Nat.add_sub_cancel]
  refine Returns.bind ((readSize_returns header).to (sound.tiled.stored b member).size)
    (Returns.ifPos fits ?_)
  exact Returns.bind run Returns.pure

end OperatingSystems.Malloc3
