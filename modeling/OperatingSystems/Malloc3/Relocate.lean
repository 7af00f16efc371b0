import OperatingSystems.Malloc3.TryMerge

/-!
# Moving an allocation

`srealloc` moves what it cannot grow in place. It frees a block of the heap
before it requests a new one, and copies the old payload out of the free block
that the old one has become part of. What it takes for a mapping it copies
before it frees it. Neither path looks at the answer to the request: when that
is null, the copy goes to null.
-/

namespace OperatingSystems.Malloc3

open Bytes Process MallocMetadata Tiling Payloads

variable {s t u : State} {pre post old mid new blocks : List Block} {b c : Block} {n : Nat}
  {o z : Nat × Nat} {taken given back final : List (Nat × Nat)}

/-- One transfer after another. -/
theorem Transfer.trans (first : Transfer s old t mid taken given)
    (second : Transfer t mid u new back final) (same : given.Perm back) :
    Transfer s old u new taken final where
  sound := second.sound
  ledger := by
    obtain ⟨rest, before, between, kept⟩ := first.ledger
    obtain ⟨more, beyond, after, keptMore⟩ := second.ledger
    have others : rest.Perm more := (List.perm_append_left_iff given).mp
      (between.symm.trans (beyond.trans (same.symm.append_right more)))
    exact ⟨more, before.trans (others.append_left taken), after,
      keptMore.trans (kept.mono (payloadCells_mono others.symm.subset))⟩

/-- A payload that stays may be listed as taken and given again. -/
theorem Transfer.widen (transfer : Transfer s old t new taken given)
    (member : o ∈ owned old s.maps) (stays : o ∉ taken) :
    Transfer s old t new (o :: taken) (o :: given) where
  sound := transfer.sound
  ledger := by
    obtain ⟨rest, before, after, kept⟩ := transfer.ledger
    have other : o ∈ rest := (List.mem_append.mp (before.mem_iff.mp member)).resolve_left stays
    have perm := List.perm_cons_erase other
    refine ⟨rest.erase o, ?_, ?_, kept.mono (payloadCells_mono List.erase_subset)⟩
    · exact before.trans ((perm.append_left taken).trans List.perm_middle)
    · exact after.trans ((perm.append_left given).trans List.perm_middle)

/-- Rewriting the bytes of one payload. -/
theorem Sound.written (sound : Sound s blocks) {bytes : Memory} (member : z ∈ owned blocks s.maps)
    {length : Nat} (fits : length ≤ z.2) (frame : Set.EqOn bytes s.bytes (cells z.1 length)ᶜ) :
    Transfer s blocks (s.withBytes bytes) blocks [z] [z] where
  sound := sound.write frame fun x inside => by
    simp only [mem_cells] at inside
    exact ⟨z, member, inside.1, by omega⟩
  ledger := by
    have perm := List.perm_cons_erase member
    refine ⟨_, perm, perm, fun x here => frame fun inside => ?_⟩
    obtain ⟨other, listed, low, high⟩ := here
    have clear := (List.pairwise_cons.mp (sound.separate.perm perm Or.symm)).1 other listed
    simp only [mem_cells] at inside
    omega

/-- The header of a payload holds its capacity. -/
theorem Sound.capacity (sound : Sound s blocks) (member : o ∈ owned blocks s.maps) :
    32 ≤ o.1 ∧ s.Mapped (o.1 - 32) 32 ∧ size s.bytes (o.1 - 32) = o.2 := by
  rcases mem_owned.mp member with ⟨b, listed, _, rfl⟩ | ⟨region, listed, rfl⟩
  · exact ⟨by simp, (sound.tiled.header_mapped listed).1, (sound.tiled.stored b listed).size⟩
  · have sized := (sound.mappings.holds region listed).sized
    refine ⟨by simp, sound.mappings.mapped listed, ?_⟩
    simp only [Nat.add_sub_cancel]
    omega

/-- Null is not accessible. -/
theorem Sound.null_unmapped (sound : Sound s blocks) (positive : 0 < n) : ¬s.Mapped 0 n := by
  have := sound.tiled.proper
  rintro (none | ⟨low, _⟩ | ⟨region, member, low, _⟩)
  · omega
  · omega
  · have := (sound.mappings.holds region member).proper
    omega

/-- A copy to memory that is not accessible faults. -/
theorem memmove_faults {target source length : Nat} (unmapped : ¬s.Mapped target length) :
    Faults (memmove target source length) s .segv := if_neg fun both => unmapped both.2

/-- The payload is a mapping, or a block below the threshold: `sfree` takes it
for what it is. -/
def Recognised (maps : List (Nat × Nat)) (o : Nat × Nat) : Prop :=
  o.2 < MMAP_THRESHOLD ∨ ∃ region ∈ maps, o = (region.1 + 32, region.2 - 32)

/-- `sfree` on any payload. -/
theorem sfree_owned (sound : Sound s blocks) (member : o ∈ owned blocks s.maps) :
    ∃ t new, Returns (sfree o.1) s () t ∧ Transfer s blocks t new [o] [] ∧
      (Recognised s.maps o → Keeps s blocks t new) ∧ (Aligned blocks → Aligned new) := by
  rcases mem_owned.mp member with ⟨b, listed, live, rfl⟩ | ⟨region, listed, rfl⟩
  · obtain ⟨t, new, run, transfer, exactly, aligned⟩ := sfree_heap sound listed live
    refine ⟨t, new, run, transfer, fun recognised => ?_, aligned⟩
    rcases recognised with small | ⟨region, known, same⟩
    · exact exactly small
    · have elsewhere := sound.offHeap known
      rw [← (Prod.mk.inj same).1] at elsewhere
      exact absurd (sound.onHeap listed).1 elsewhere
  · exact ⟨_, blocks, sfree_mapping sound.mappings listed, sound.unmapped listed,
      fun _ => .unmapped blocks listed, id⟩

/-- Moving what is taken for a mapping: request, copy, free. -/
theorem remap_outcome (sound : Sound s blocks) (member : o ∈ owned blocks s.maps)
    (positive : 0 < o.2) (larger : o.2 < n) :
    (¬Satisfiable s blocks n ∧ Faults (remap o.1 n) s .segv) ∨
      Satisfiable s blocks n ∧ ∃ q t new capacity, Returns (remap o.1 n) s q t ∧ n ≤ capacity ∧
        Transfer s blocks t new [o] [(q, capacity)] ∧ Carried s t o (q, capacity) ∧
        (SmallRequest s n → Recognised s.maps o → Keeps s blocks t new) ∧
        (Aligned blocks → Aligned new) := by
  obtain ⟨q, t, mid, run, served, _, widens, exactly, aligned⟩ := smalloc_served sound n
  -- The header is read after the request, which leaves it alone.
  have reads : ∀ {t : State} {mid : List Block}, Sound t mid → o ∈ owned mid t.maps →
      Returns (readSize (o.1 - SOM)) t o.2 t := fun after listed =>
    (readSize_returns (after.capacity listed).2.1).to (after.capacity listed).2.2
  cases served with
  | refused denied null same after =>
    refine Or.inl ⟨denied, ?_⟩
    subst same null
    have still : Sound t mid ∧ o ∈ owned mid t.maps := by
      rcases after with rfl | rfl
      · exact ⟨sound, member⟩
      · exact ⟨sound.answered, member⟩
    unfold remap
    refine Returns.bind_faults run (Returns.bind_faults (reads still.1 still.2) ?_)
    exact (memmove_faults (still.1.null_unmapped positive)).bind
  | granted satisfied capacity fits transfer =>
    refine Or.inr ⟨satisfied, ?_⟩
    obtain ⟨z, isTarget⟩ : ∃ z, z = (q, capacity) := ⟨_, rfl⟩
    rw [← isTarget] at transfer
    have start : z.1 = q := by rw [isTarget]
    have room : z.2 = capacity := by rw [isTarget]
    obtain ⟨rest, before, between, kept⟩ := transfer.ledger
    have staying : o ∈ rest := by simpa using before.mem_iff.mp member
    have listed : o ∈ owned mid t.maps := between.mem_iff.mpr (by simp [staying])
    have target : z ∈ owned mid t.maps := between.mem_iff.mpr (by simp)
    have differs : z ≠ o := by
      rintro rfl
      have distinct := (between.map Prod.fst).nodup_iff.mp transfer.sound.distinct
      exact (List.nodup_cons.mp distinct).1 (List.mem_map_of_mem staying)
    have frame : Set.EqOn (copy t.bytes z.1 o.1 o.2) t.bytes (cells z.1 o.2)ᶜ :=
      copy_outside _ _ _ _
    have copied := transfer.sound.written target (by omega) frame
    obtain ⟨u, new, freed, release, releaseKeeps, releaseAligned⟩ :=
      sfree_owned copied.sound listed
    have written := (transfer.widen member (by simp)).trans
      (copied.widen listed (by simp [differs.symm])) (List.Perm.refl _)
    have whole := written.trans (release.widen target (by simp [differs])) (List.Perm.swap z o [])
    refine ⟨q, u, new, capacity, ?_, fits, ?_, fun i inSource _ => ?_, fun small recognised => ?_,
      releaseAligned ∘ aligned⟩
    · unfold remap
      refine Returns.bind run (Returns.bind (reads transfer.sound listed) ?_)
      refine Returns.bind (x := ()) (t := t.withBytes (copy t.bytes z.1 o.1 o.2)) ?_
        (Returns.bind freed Returns.pure)
      rw [← start]
      exact memmove_returns (transfer.sound.payload_mapped listed)
        ((transfer.sound.payload_mapped target).sub (Nat.le_refl _) (by omega))
    · rwa [← isTarget]
    · obtain ⟨others, ahead, behind, last⟩ := release.ledger
      have stays : z ∈ others :=
        (List.mem_append.mp (ahead.mem_iff.mp target)).resolve_left (by simp [differs])
      refine (last ⟨z, stays, by simp only [start]; omega, by omega⟩).trans ?_
      simp only [← start]
      refine (copy_inside _ _ _ _ _ inSource).trans ?_
      exact kept ⟨o, staying, by omega, by omega⟩
    · refine ((exactly small).trans (.write t mid _)).trans (releaseKeeps ?_)
      exact recognised.imp_right fun ⟨region, known, same⟩ => ⟨region, widens.maps known, same⟩

/-- The free block that a freed block becomes part of, behind the gain before it. -/
theorem Tiled.merged_address (tiled : Tiled s (pre ++ b :: post)) :
    (b.merged pre post).address + gainBefore pre = b.address := by
  rcases List.eq_nil_or_concat pre with rfl | ⟨more, p, rfl⟩
  · simp [Block.merged, gainBefore, footBefore]
  · rw [List.concat_eq_append] at *
    have beside : p.address + p.size + 64 = b.address := tiled.previous
    simp only [Block.merged, gainBefore_concat]
    split <;> omega

/-- Freeing replaces a run of free blocks, none of them larger, by the block
they become. -/
theorem Merged.split (merged : Merged s pre b post t new) :
    ∃ front mid back, pre ++ b.freed :: post = front ++ mid ++ back ∧ b.freed ∈ mid ∧
      (∀ c ∈ mid, c.free = true ∧ c.size ≤ (b.merged pre post).size) ∧
      new = front ++ b.merged pre post :: back := by
  obtain ⟨old, isOld⟩ : ∃ old, old = pre ++ b.freed :: post := ⟨_, rfl⟩
  have fuses := merged.fuses
  have tiled := merged.tiled
  have whole := merged.block
  rw [← isOld] at fuses ⊢
  obtain ⟨front, mid, back, a, e, tiles, member, free⟩ := fuses
  have inside := tiles.within member
  rw [b.freed.extent_eq, Block.freed_address, Block.freed_size] at inside
  -- The merged block and the run share the freed block, so they are one.
  have same : filling a e true = b.merged pre post := by
    by_contra differs
    have clear := tiled.tiles.disjoint (by simp) whole differs
    simp only [Block.extent_eq, filling, Block.merged] at clear
    omega
  refine ⟨front, mid, back, rfl, member, fun c listed => ⟨free c listed, ?_⟩, by rw [same]⟩
  have place := tiles.within listed
  rw [c.extent_eq] at place
  rw [← same]
  simp only [filling]
  omega

/-- A free block larger than the merged one was there before. -/
theorem Merged.large_iff (merged : Merged s pre b post t new) (live : b.free = false)
    (short : (b.merged pre post).size < n) (free : c.free = true) (fits : n ≤ c.size) :
    c ∈ new ↔ c ∈ pre ++ b :: post := by
  obtain ⟨front, mid, back, split, _, small, rfl⟩ := merged.split
  have marked : c ∈ pre ++ b :: post ↔ c ∈ pre ++ b.freed :: post := by
    have notOld : c ≠ b := by
      rintro rfl
      simp [live] at free
    have notFreed : c ≠ b.freed := by
      rintro rfl
      simp only [Block.freed_size, Block.merged] at fits short
      omega
    simp [notOld, notFreed]
  have notMerged : c ≠ b.merged pre post := by
    rintro rfl
    omega
  have notMid : c ∉ mid := fun listed => by
    have := (small c listed).2
    omega
  rw [marked, split]
  simp [notMerged, notMid]

/-- The bytes by which the heap has to grow for a block of `n` bytes at its end
once the block `b` is freed. -/
def shortageFreed (s : State) (pre : List Block) (b : Block) (post : List Block) (n : Nat) : Nat :=
  if b.address + b.size + gainAfter post + 64 = s.brk then n - (b.merged pre post).size
  else shortage (pre ++ b :: post) n

/-- Only the last block matters for what is missing. -/
theorem shortage_last (same : old.getLast? = new.getLast?) : shortage old n = shortage new n := by
  unfold shortage
  rw [same]

/-- What is missing after the block was freed. -/
theorem Merged.shortage (merged : Merged s pre b post t new) (tiled : Tiled s (pre ++ b :: post))
    (n : Nat) : shortage new n = shortageFreed s pre b post n := by
  have brk : t.brk = s.brk := by rw [merged.rest]; rfl
  have start := tiled.merged_address
  have after := merged.tiled
  obtain ⟨front, mid, back, split, member, _, rfl⟩ := merged.split
  have finish := after.place.2.2
  have ends : (b.merged pre post).address + (b.merged pre post).size =
      b.address + b.size + gainAfter post := by
    rw [← start]
    simp only [Block.merged]
    omega
  unfold shortageFreed
  rcases List.eq_nil_or_concat back with rfl | ⟨more, z, rfl⟩
  · have isLast : (b.merged pre post).address + (b.merged pre post).size + 64 = t.brk := finish
    rw [if_pos (by omega), shortage_concat]
    rfl
  · rw [List.concat_eq_append] at *
    have place := finish.within (x := z) (by simp)
    rw [z.extent_eq] at place
    rw [if_neg (by omega)]
    have behind : post ≠ [] := by
      rintro rfl
      have addresses : (pre ++ b.freed :: []).map Block.address = (pre ++ [b]).map Block.address := by
        simp
      have distinct := tiled.tiles.nodup Block.extent_pos
      rw [← addresses, split, List.map_append, List.map_append] at distinct
      have same : b.freed = z := by
        have last := congrArg List.getLast? split
        simpa using last
      exact (List.nodup_append.mp distinct).2.2 _ (List.mem_append_right _
        (List.mem_map_of_mem member)) _ (List.mem_map_of_mem (by simp)) (congrArg Block.address same)
    obtain ⟨others, y, rfl⟩ := (List.eq_nil_or_concat post).resolve_left behind
    have last : y = z := by
      have ends := congrArg List.getLast? split
      simpa [List.getLast?_cons] using ends
    apply shortage_last
    simp [List.getLast?_append, List.getLast?_cons, last]

/-- A request can be satisfied once the block `b` is freed. -/
def Replaceable (s : State) (pre : List Block) (b : Block) (post : List Block) (n : Nat) : Prop :=
  0 < n ∧ n ≤ 100000000 ∧
    if roundUp n < MMAP_THRESHOLD then
      (∃ c ∈ pre ++ b :: post, c.free = true ∧ roundUp n ≤ c.size) ∨
        s.Grants (shortageFreed s pre b post (roundUp n))
    else s.Maps (roundUp n + 32)

/-- Unless the block it becomes part of is large enough, freeing the block
decides a request by what was there before. -/
theorem Merged.satisfiable (merged : Merged s pre b post t new) (tiled : Tiled s (pre ++ b :: post))
    (live : b.free = false) (short : (b.merged pre post).size < roundUp n) :
    Satisfiable t new n ↔ Replaceable s pre b post n := by
  have grants : ∀ k, t.Grants k ↔ s.Grants k := fun k => by
    rw [merged.rest]
    exact Iff.rfl
  have maps : ∀ k, t.Maps k ↔ s.Maps k := fun k => by
    rw [merged.rest]
    exact Iff.rfl
  have served : (∃ c ∈ new, c.free = true ∧ roundUp n ≤ c.size) ↔
      ∃ c ∈ pre ++ b :: post, c.free = true ∧ roundUp n ≤ c.size := by
    constructor
    · rintro ⟨c, member, free, fits⟩
      exact ⟨c, (merged.large_iff live short free fits).mp member, free, fits⟩
    · rintro ⟨c, member, free, fits⟩
      exact ⟨c, (merged.large_iff live short free fits).mpr member, free, fits⟩
  unfold Satisfiable Replaceable
  rw [grants, maps, served, merged.shortage tiled]

/-- Nor does it change which free block the request finds. -/
theorem Merged.smallRequest (merged : Merged s pre b post t new)
    (tiled : Tiled s (pre ++ b :: post)) (live : b.free = false)
    (short : (b.merged pre post).size < roundUp n) : SmallRequest t n ↔ SmallRequest s n := by
  have fits : ∀ c, BestFit new (roundUp n) c ↔ BestFit (pre ++ b :: post) (roundUp n) c :=
    fun c => BestFit.congr fun c free fits => merged.large_iff live short free fits
  rw [merged.tiled.smallRequest, tiled.smallRequest]
  simp only [fits]

/-- A resize that succeeds: one payload takes the place of another, with room for
`n` bytes and the bytes of the old one. -/
def Resized (s : State) (old : List Block) (o : Nat × Nat) (n q : Nat) (t : State)
    (new : List Block) : Prop :=
  ∃ capacity, n ≤ capacity ∧ Transfer s old t new [o] [(q, capacity)] ∧ Carried s t o (q, capacity)

/-- The freed block lies inside the one it has become part of. -/
theorem Tiled.merged_inside (tiled : Tiled s (pre ++ b :: post)) :
    (b.merged pre post).address ≤ b.address ∧ (b.merged pre post).free = true ∧
      b.address + b.size ≤ (b.merged pre post).address + (b.merged pre post).size := by
  have start := tiled.merged_address
  refine ⟨by omega, rfl, ?_⟩
  rw [← start]
  simp only [Block.merged]
  omega

/-- The old payload is still there when the request has been served. -/
theorem Merged.remains (merged : Merged s pre b post u mid) (tiled : Tiled s (pre ++ b :: post))
    {q : Nat} (sparing : Sparing u mid n q t) (short : (b.merged pre post).size < roundUp n) {i : Nat}
    (inside : i < b.size) : t.bytes (b.address + 32 + i) = s.bytes (b.address + 32 + i) := by
  obtain ⟨low, free, high⟩ := tiled.merged_inside
  have kept := (sparing _ merged.block free short).2
  refine (kept _ (by omega) (by omega)).trans (merged.frame fun record => ?_)
  exact payload_clear tiled.tiles (b := b) (by simp) (by omega) (by omega) record

/-- What the old header says after the request: its block was handed out again,
or the size covers the old payload and fits into the free block. -/
theorem Merged.header (merged : Merged s pre b post u mid) (tiled : Tiled s (pre ++ b :: post))
    {q : Nat} (sparing : Sparing u mid n q t) (short : (b.merged pre post).size < roundUp n) :
    b.address + 32 = q ∨ b.size ≤ size t.bytes b.address ∧
      size t.bytes b.address ≤ (b.merged pre post).size ∧
      b.address + size t.bytes b.address ≤ (b.merged pre post).address + (b.merged pre post).size := by
  obtain ⟨low, free, high⟩ := tiled.merged_inside
  have start := tiled.merged_address
  obtain ⟨header, kept⟩ := sparing _ merged.block free short
  by_cases first : (b.merged pre post).address = b.address
  · rcases header with same | sized
    · exact Or.inl (by omega)
    · rw [first] at sized
      exact Or.inr (by omega)
  · -- The header is stale, inside the payload of the free block.
    have gain : 64 ≤ gainBefore pre := by
      rcases List.eq_nil_or_concat pre with rfl | ⟨more, p, rfl⟩
      · exact absurd start (by simpa [gainBefore, footBefore] using first)
      · rw [List.concat_eq_append] at *
        rw [gainBefore_concat] at *
        split at start
        · rw [if_pos (by assumption)]
          omega
        · omega
    have same : Set.EqOn t.bytes u.bytes (cells b.address 8)ᶜᶜ := by
      rw [compl_compl]
      intro x here
      simp only [mem_cells] at here
      apply kept x (by omega)
      simp only [Block.merged] at *
      omega
    have sized : size t.bytes b.address = b.size := by
      refine (size_frame same fun x low high out => out ⟨low, by omega⟩).trans ?_
      exact (merged.sizes b (by simp)).resolve_left (Ne.symm first)
    exact Or.inr (by omega)

/-- The old header says how much to copy: at least the old payload, and no more than
the new payload has room for. -/
theorem Merged.length (merged : Merged s pre b post u mid) (tiled : Tiled s (pre ++ b :: post))
    (between : Sound u mid) {q capacity : Nat} {new : List Block} (run : Returns (smalloc n) u q t)
    (sparing : Sparing u mid n q t) (widens : Widens u t)
    (transfer : Transfer u mid t new [] [(q, capacity)])
    (short : (b.merged pre post).size < roundUp n) :
    b.size ≤ size t.bytes b.address ∧ size t.bytes b.address ≤ capacity ∧
      t.Mapped (b.address + 32) (size t.bytes b.address) := by
  obtain ⟨rest, _, after, _⟩ := transfer.ledger
  have target : (q, capacity) ∈ owned new t.maps := after.mem_iff.mpr (by simp)
  have states : size t.bytes (q - 32) = capacity := (transfer.sound.capacity target).2.2
  have room : roundUp n ≤ capacity :=
    (smalloc_room between run (owned_proper target)).trans states.le
  have writable := transfer.sound.payload_mapped target
  have place := between.within merged.block
  obtain ⟨low, _, high⟩ := tiled.merged_inside
  rcases merged.header tiled sparing short with same | ⟨covers, within, inside⟩
  · have whole : size t.bytes b.address = capacity := by
      rw [← states, ← same, Nat.add_sub_cancel]
    refine ⟨?_, by omega, ?_⟩
    · simp only [Block.merged] at short
      omega
    · rw [whole, same]
      exact writable
  · exact ⟨covers, by omega, widens.mapped (Machine.mapped_heap (by omega) (by omega))⟩

/-- Freeing a block below the threshold, requesting a new one and copying. -/
theorem relocate_outcome (sound : Sound s (pre ++ b :: post)) (live : b.free = false)
    (small : b.size < MMAP_THRESHOLD) (positive : 0 < b.size)
    (short : (b.merged pre post).size < roundUp n) :
    (¬Replaceable s pre b post n ∧ Faults (relocate (b.address + 32) n) s .segv) ∨
      Replaceable s pre b post n ∧ ∃ q t new, Returns (relocate (b.address + 32) n) s q t ∧
        Resized s (pre ++ b :: post) (b.address + 32, b.size) n q t new ∧
        (SmallRequest s n → Keeps s (pre ++ b :: post) t new) ∧
        (Aligned (pre ++ b :: post) → Aligned new) := by
  have tiled := sound.tiled
  obtain ⟨u, mid, freed, merged⟩ :=
    sfree_returns tiled live small fun c member => sound.shown c (by simp [member])
  have released := merged.transfer sound live
  obtain ⟨q, t, new, run, served, sparing, widens, exactly, aligned⟩ :=
    smalloc_served released.sound n
  have satisfiable := merged.satisfiable tiled live short
  have mapped : ∀ {a k : Nat}, s.Mapped a k → t.Mapped a k := fun here =>
    widens.mapped (merged.evolves.toEvolves.widens.mapped here)
  have reads : Returns (readSize (b.address + 32 - SOM)) t (size t.bytes b.address) t := by
    simp only [SOM, Nat.add_sub_cancel]
    exact readSize_returns (mapped (tiled.header_mapped (b := b) (by simp)).1)
  cases served with
  | refused denied null same after =>
    refine Or.inl ⟨fun can => denied (satisfiable.mpr can), ?_⟩
    subst null same
    have still : Sound t new := by
      rcases after with rfl | rfl
      · exact released.sound
      · exact released.sound.answered
    unfold relocate
    refine Returns.bind_faults freed (Returns.bind_faults run (Returns.bind_faults reads ?_))
    have covered := (merged.header tiled sparing short).resolve_left (by omega)
    exact (memmove_faults (still.null_unmapped (by omega))).bind
  | granted satisfied capacity fits transfer =>
    refine Or.inr ⟨satisfiable.mp satisfied, ?_⟩
    obtain ⟨rest, _, between, _⟩ := transfer.ledger
    have target : (q, capacity) ∈ owned new t.maps := between.mem_iff.mpr (by simp)
    have writable := transfer.sound.payload_mapped target
    obtain ⟨covers, within, readable⟩ :=
      merged.length tiled released.sound run sparing widens transfer short
    obtain ⟨length, isLength⟩ : ∃ length, length = size t.bytes b.address := ⟨_, rfl⟩
    rw [← isLength] at reads covers within readable
    have copied := transfer.sound.written target within
      (copy_outside t.bytes q (b.address + 32) length)
    have whole := (released.trans transfer (List.Perm.refl _)).trans copied (List.Perm.refl _)
    refine ⟨q, _, new, ?_, ⟨capacity, fits, whole, fun i inSource _ => ?_⟩, fun guard => ?_, fun even => ?_⟩
    · unfold relocate
      refine Returns.bind freed (Returns.bind run (Returns.bind reads ?_))
      exact Returns.bind (x := ()) (memmove_returns readable
        (writable.sub (Nat.le_refl _) (by simp only; omega))) Returns.pure
    · simp only at inSource ⊢
      exact (copy_inside _ _ _ _ _ (by omega)).trans (merged.remains tiled sparing short inSource)
    · have guarded := (merged.smallRequest tiled live short).mpr guard
      exact (merged.evolves.keeps.trans (exactly guarded)).trans (.write t new _)
    · refine aligned (merged.fuses.aligned ?_)
      simpa using even

end OperatingSystems.Malloc3
