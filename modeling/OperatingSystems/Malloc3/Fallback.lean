import OperatingSystems.Malloc3.Frees
import OperatingSystems.Malloc3.Successor

/-!
# Copying out of a freed block

When a block cannot grow in place, `srealloc` frees it, requests another one and
copies the old payload out of the free block that the old one has become part
of. That is sound because of why the block could not grow: the free block is too
small for the request and does not end the heap, so the request is served
elsewhere and leaves those bytes alone.
-/

namespace OperatingSystems.Malloc3

open Bytes Process MallocMetadata Tiling Payloads Runs

variable {s t u v w : State} {pre post more mid new blocks : List Block} {b c p m next : Block}
  {n q : Nat}

/-- The moves down return a payload. -/
theorem absorbPrevious_yields (current prevFooter : Nat) :
    Yields (absorbPrevious current prevFooter) fun r => r ≠ 0 := by
  unfold absorbPrevious
  refine .bind fun _ => .bind fun _ => .bind fun _ => .bind fun _ => .bind fun _ => ?_
  refine .bind fun _ => .bind fun _ => .bind fun _ => .bind fun _ => .bind fun _ => ?_
  exact .bind fun _ => .pure (by simp only [SOM]; omega)

theorem joinThree_yields (current prev next : Nat) :
    Yields (joinThree current prev next) fun r => r ≠ 0 := by
  unfold joinThree
  refine .bind fun _ => .bind fun _ => .bind fun _ => .bind fun _ => .bind fun _ => ?_
  exact .bind fun _ => .bind fun _ => .pure (by simp only [SOM]; omega)

theorem absorbBoth_yields (current prevFooter next : Nat) :
    Yields (absorbBoth current prevFooter next) fun r => r ≠ 0 := by
  unfold absorbBoth
  refine .bind fun _ => .bind fun _ => .bind fun _ => .bind fun _ => .bind fun _ => ?_
  exact .bind fun _ => .bind fun _ => joinThree_yields _ _ _

/-- Once case b has gone into the block before, its result is a payload. -/
theorem afterPrevious_proper {rest : Alloc Nat}
    (enters : growIntoPrevious b.address (b.address - 32) n s =
      (absorbPrevious b.address (b.address - 32) >>= fun result => pure (some result)) t)
    (run : Returns (afterPrevious b.address (b.address - 32) n rest) s q u) : q ≠ 0 := by
  have entered := (bind_start enters).symm.trans run
  rw [bind_assoc] at entered
  refine (?_ : Yields _ fun r => r ≠ 0) _ _ _ entered
  refine .andThen (absorbPrevious_yields _ _) fun r proper => ?_
  simp only [pure_bind]
  exact .pure proper

/-- Case f with a free block before, when the system grants the bytes. -/
theorem growBoth_proper (tiled : Tiled s (pre ++ [p, b, next]))
    (larger : p.size + b.size + next.size + 128 < n) (request : n < 2 ^ 63) (apart : MapsApart s)
    (granted : s.Grants (n - (p.size + b.size + next.size + 128)))
    (run : Returns (growBoth b.address (b.address - 32) next.address n) s q u) : q ≠ 0 := by
  obtain ⟨added, isAdded⟩ : ∃ added, added = n - (p.size + b.size + next.size + 128) := ⟨_, rfl⟩
  have asks := (growBoth_reads tiled larger request isAdded).symm.trans run
  rw [← isAdded] at granted
  have positive : Returns (assert (0 < added)) s () s := assert_returns (by omega)
  replace asks := positive.step.symm.trans asks
  by_cases whole : added % 8 = 0
  · have even : Returns (assert (added % 8 = 0)) s () s := assert_returns whole
    replace asks := even.step.symm.trans asks
    rcases tiled.sbrk_outcome apart added (by omega) with ⟨_, denied, _⟩ | ⟨_, differs, v, grant, _⟩
    · exact absurd granted denied
    · replace asks := grant.step.symm.trans asks
      rw [if_neg differs] at asks
      refine (?_ : Yields _ fun r => r ≠ 0) _ _ _ asks
      exact .bind fun _ => .bind fun _ => .bind fun _ => .bind fun _ => joinThree_yields _ _ _
  · exact absurd asks (Faults.bind (assert_faults whole)).not_returns

/-- Where there is a way to grow and the system grants what it takes, the result is a
payload, also when the move overwrites links. -/
theorem Grows.proper (tiled : Tiled s (pre ++ b :: post)) (live : b.free = false)
    (exact : s.globals.blockList.wilderness = lastAddress (pre ++ b :: post)) (shown : Shown pre)
    (apart : MapsApart s) (larger : b.size < n) (request : n < 2 ^ 63) (even : n % 8 = 0)
    (grows : Grows s b.address n) (run : Returns (tryMergeRealloc b.address n) s q t) : q ≠ 0 := by
  obtain ⟨somewhere, granted⟩ := id grows
  by_cases overlaps : Overlaps s b.address n
  swap
  · cases tryMergeRealloc_attempted tiled live exact shown apart larger request even overlaps with
    | without way => exact absurd way somewhere
    | made _ attempt =>
      cases attempt with
      | refused positive denied => exact (granted.elim (fun none => by omega) denied).elim
      | failed _ _ faults => exact absurd run faults.not_returns
      | grown _ _ _ _ _ returned =>
        rw [(run.unique returned).1]
        omega
  -- Only a payload behind a free block moves down.
  have before : footBefore pre = true := by
    by_contra used
    have still := movedLength_alone (a := b.address) (n := n)
      (tiled.previousFree_eq.trans (Bool.eq_false_iff.mpr used))
    have := overlaps.2
    omega
  rcases List.eq_nil_or_concat pre with rfl | ⟨more, p, rfl⟩
  · simp [footBefore] at before
  rw [List.concat_eq_append] at *
  have foot : p.foot = true := by simpa using before
  have sized : size s.bytes b.address = b.size := (tiled.stored b (by simp)).size
  have previous : previousSize s b.address = p.size := tiled.previousSize_eq
  have free : previousFree s b.address = true := tiled.previousFree_eq.trans before
  have step := (tryMergeRealloc_previous tiled foot n).symm.trans run
  cases post with
  | nil =>
    have isLast : s.globals.blockList.wilderness = b.address := by
      rw [exact, lastAddress_append_cons, lastAddress_singleton]
    have pair : Tiled s (more ++ [p, b]) := by simpa using tiled
    by_cases beyond : p.size + b.size + 64 ≤ n
    · have way : growth s b.address n = .previousOverBreak := by
        simp [growth, free, previous, sized, isLast, beyond]
      rw [extension, way] at granted
      simp only [joined, previous, sized] at granted
      rcases growIntoPrevious_enters_extended pair isLast apart beyond request _ rfl with
        ⟨positive, denied, _⟩ | ⟨_, x, _, enters⟩
      · exact (granted.elim (fun none => by omega) denied).elim
      · exact afterPrevious_proper enters step
    · exact afterPrevious_proper (growIntoPrevious_enters_last pair isLast (by omega)) step
  | cons next post =>
    have inside : b.address ≠ s.globals.blockList.wilderness := by simp [tiled.last_iff exact]
    have ways := growth_inside (n := n) tiled foot inside
    by_cases fits : n ≤ b.size + p.size + 64
    · have pair : Tiled s (more ++ [p, b] ++ next :: post) := by simpa using tiled
      exact afterPrevious_proper (growIntoPrevious_enters pair (Ne.symm inside) fits) step
    have dispatch := (tryMergeRealloc_inside tiled foot inside (Nat.not_le.mp fits)).symm.trans run
    rw [if_neg fits] at ways
    by_cases intoNext : next.free = true ∧ n ≤ next.size + b.size + 64
    · rw [if_pos intoNext] at ways
      have moved := overlaps.2
      simp [movedLength, ways] at moved
    rw [if_neg intoNext] at dispatch ways
    by_cases intoBoth : next.free = true ∧ n ≤ p.size + b.size + next.size + 128
    · rw [if_pos intoBoth] at dispatch
      exact absorbBoth_yields _ _ _ _ _ _ dispatch
    rw [if_neg intoBoth] at dispatch ways
    by_cases overBreak : next.free = true ∧ next.address = s.globals.blockList.wilderness
    · rw [if_pos overBreak] at dispatch ways
      obtain rfl : post = [] := next_last tiled (overBreak.2.trans exact)
      have beyond : p.size + b.size + next.size + 128 < n := by
        by_contra short
        exact intoBoth ⟨overBreak.1, by omega⟩
      rw [extension, ways] at granted
      simp only [joined, previous, sized, tiled.nextSize_eq] at granted
      exact growBoth_proper (by simpa using tiled) beyond request apart
        (granted.resolve_left (by omega)) dispatch
    · rw [if_neg overBreak] at ways
      exact absurd ways somewhere

/-- `tryMergeRealloc` returns null without a refusal only when there is no way to grow,
and then it has changed nothing. -/
theorem tryMergeRealloc_null (tiled : Tiled s (pre ++ b :: post)) (live : b.free = false)
    (exact : s.globals.blockList.wilderness = lastAddress (pre ++ b :: post)) (shown : Shown pre)
    (apart : MapsApart s) (larger : b.size < n) (request : n < 2 ^ 63) (even : n % 8 = 0)
    (null : Returns (tryMergeRealloc b.address n) s 0 t) (willing : ¬SbrkFails s b.address n) :
    growth s b.address n = .nowhere ∧ t = s := by
  have nowhere : growth s b.address n = .nowhere := by
    by_contra somewhere
    have granted : extension s b.address n = 0 ∨ s.Grants (extension s b.address n) := by
      by_contra neither
      rw [not_or] at neither
      exact willing ⟨somewhere, by omega, neither.2⟩
    exact Grows.proper tiled live exact shown apart larger request even ⟨somewhere, granted⟩ null rfl
  refine ⟨nowhere, ?_⟩
  cases tryMergeRealloc_attempted tiled live exact shown apart larger request even
    fun overlaps => overlaps.1.1 nowhere with
  | without _ run => exact (null.unique run).2
  | made somewhere => exact absurd nowhere somewhere

/-- A block that cannot grow does not become part of the last one when it is freed. -/
theorem Merged.inner {front back : List Block} (merged : Merged s pre b post t new)
    (sound : Sound s (pre ++ b :: post)) (nowhere : growth s b.address n = .nowhere)
    (same : new = front ++ b.merged pre post :: back) : back ≠ [] := by
  rintro rfl
  subst same
  have tiled := sound.tiled
  have brk : t.brk = s.brk := by rw [merged.rest]; rfl
  have ends : (b.merged pre post).address + (b.merged pre post).size + 64 = t.brk :=
    merged.tiled.place.2.2
  have start := tiled.merged_address
  have finish : b.address + b.size + gainAfter post + 64 = s.brk := by
    rw [← brk, ← ends, ← start]
    simp only [Block.merged]
    omega
  cases post with
  | nil =>
    have isLast := (tiled.last_iff sound.wilderness).mpr rfl
    unfold growth at nowhere
    simp only [isLast, and_true, if_true] at nowhere
    split_ifs at nowhere
  | cons next post =>
    have beside := tiled.next
    have above := tiled.place.2.2.2.le
    rw [next.extent_eq] at above
    cases free : next.free with
    | false =>
      rw [gainAfter_cons, free] at finish
      simp only [Bool.false_eq_true, if_false] at finish
      omega
    | true =>
      rw [gainAfter_cons, free, if_pos rfl] at finish
      have behind := tiled.place.2.2.2
      rw [next.extent_eq, show b.address + b.size + 64 + (next.size + 64) = s.brk by omega] at behind
      obtain rfl := behind.none Block.extent_pos
      have isLast : nextAddress s b.address = s.globals.blockList.wilderness := by
        rw [tiled.nextAddress_eq, sound.wilderness, ← beside]
        simp
      have shows : nextFree s b.address = true := tiled.nextFree_eq.trans free
      unfold growth at nowhere
      simp only [shows, isLast, and_self, if_true] at nowhere
      split_ifs at nowhere

/-- The cells of the block behind a pointer: header and payload, and in the heap the
footer. -/
def blockCells (s : State) (q : Nat) : Set Nat :=
  cells (q - SOM) (blockSize s q + if OnHeap s q then 2 * SOM else SOM)

/-- The other payloads are those of before a request. -/
theorem Transfer.others {o z : Nat × Nat} (transfer : Transfer s blocks t new [] [z])
    (member : o ∈ owned blocks s.maps) : o ∈ owned new t.maps ∧ o ≠ z := by
  obtain ⟨rest, before, after, _⟩ := transfer.ledger
  have other : o ∈ rest := by simpa using before.mem_iff.mp member
  refine ⟨after.mem_iff.mpr (by simp [other]), ?_⟩
  rintro rfl
  have distinct := (after.map Prod.fst).nodup_iff.mp transfer.sound.distinct
  exact (List.nodup_cons.mp distinct).1 (List.mem_map_of_mem other)

/-- A block in use stays in the heap over a request. -/
theorem Transfer.stays {z : Nat × Nat} (transfer : Transfer s blocks t new [] [z])
    (agree : ∀ d ∈ blocks, d.foot = d.free) (member : c ∈ blocks) (live : c.free = false)
    (widens : Widens s t) (sound : Sound s blocks) : c ∈ new ∧ (c.address + 32, c.size) ≠ z := by
  obtain ⟨listed, other⟩ := transfer.others (mem_owned.mpr (Or.inl ⟨c, member, live, rfl⟩))
  refine ⟨?_, other⟩
  rcases mem_owned.mp listed with ⟨d, inNew, liveNew, same⟩ | ⟨region, known, same⟩
  · obtain ⟨address, size⟩ := Prod.mk.inj same
    have foot : d.foot = false := by
      by_contra shown
      have := transfer.sound.shown d inNew (by simpa using shown)
      exact absurd (liveNew.symm.trans this) (by simp)
    have whole : c = d := by
      have footC := agree c member
      obtain ⟨_, _, _, _⟩ := c
      obtain ⟨_, _, _, _⟩ := d
      simp only at *
      subst size live liveNew foot footC
      congr 1
      omega
    rw [whole]
    exact inNew
  · have place := sound.within member
    have elsewhere := transfer.sound.offHeap known
    have := widens.heapStart
    have := widens.grows
    rw [← (Prod.mk.inj same).1] at elsewhere
    exact absurd ⟨by omega, by omega⟩ elsewhere

/-- What a request hands out does not overlap a free block that is too small for it and
does not end the heap. -/
theorem Transfer.apart {front back : List Block} {capacity : Nat}
    (transfer : Transfer s (front ++ m :: back) t new [] [(q, capacity)])
    (sound : Sound s (front ++ m :: back)) (coalesced : Coalesced (front ++ m :: back))
    (widens : Widens s t) (free : m.free = true) (short : m.size < capacity) (inside : back ≠ []) :
    Disjoint (blockCells t q) (cells m.address m.extent) := by
  obtain ⟨rest, _, after, _⟩ := transfer.ledger
  have target : (q, capacity) ∈ owned new t.maps := after.mem_iff.mpr (by simp)
  have states : blockSize t q = capacity := (transfer.sound.capacity target).2.2
  have place := sound.within (b := m) (by simp)
  have heapStart := widens.heapStart
  have grows := widens.grows
  have clear : ∀ {low length : Nat}, low + length ≤ m.address ∨ m.address + m.extent ≤ low →
      Disjoint (cells low length) (cells m.address m.extent) := by
    intro low length beside
    refine Set.disjoint_left.mpr fun x inLeft inRight => ?_
    simp only [mem_cells] at inLeft inRight
    omega
  unfold blockCells
  rw [states]
  rcases mem_owned.mp target with ⟨c, inNew, live, same⟩ | ⟨region, known, same⟩
  · obtain ⟨rfl, rfl⟩ := Prod.mk.inj same
    rw [if_pos (transfer.sound.onHeap inNew).1]
    apply clear
    have tiles := transfer.sound.tiled.tiles
    rw [heapStart] at tiles
    have beside := coalesced.room free sound.tiled.tiles tiles (fun d known used => by
        obtain ⟨stays, other⟩ := transfer.stays coalesced.agree known used widens sound
        exact ⟨stays, fun same => other (by rw [same])⟩)
      (fun none => absurd none inside) inNew
    simp only [SOM, Nat.add_sub_cancel]
    rw [Block.extent_eq, Block.extent_eq] at *
    omega
  · obtain ⟨rfl, rfl⟩ := Prod.mk.inj same
    rw [if_neg (transfer.sound.offHeap known)]
    have elsewhere := transfer.sound.mappings.apart region known
    apply clear
    simp only [SOM, Nat.add_sub_cancel]
    rw [m.extent_eq]
    omega

/-- The old block `b` has become part of the free block `m`, the request was served at
`q`, and nothing of `m` was touched before the copy. The copy fits, and it carries
the old payload. -/
structure FellBack (s : State) (b : Block) (n : Nat) (v w : State) (q : Nat) (m : Block) : Prop where
  absorbed : m.free = true ∧ m.address ≤ b.address ∧
    b.address + b.extent ≤ m.address + m.extent
  stored : Stored v.bytes m
  apart : Disjoint (blockCells w q) (cells m.address m.extent)
  intact : ∀ i, i < b.size → v.bytes (b.pointer + i) = s.bytes (b.pointer + i) ∧
    w.bytes (b.pointer + i) = s.bytes (b.pointer + i)
  fits : size w.bytes b.address ≤ blockSize w q
  copied : ∃ t, Returns (srealloc b.pointer n) s q t ∧
    ∀ i, i < b.size → t.bytes (q + i) = s.bytes (b.pointer + i)

/-- When `tryMergeRealloc` gives up although nothing was refused, and the request after
the release succeeds, the copy out of the freed block is sound. -/
theorem srealloc_falls_back (formed : WellFormed s blocks) (grounded : Grounded s)
    (mappings : Mappings s) (member : b ∈ blocks) (live : b.free = false)
    (small : b.size < MMAP_THRESHOLD) (larger : b.size < n)
    (null : Returns (tryMergeRealloc b.address (roundUp n)) s 0 u)
    (willing : ¬SbrkFails s b.address (roundUp n)) (freed : Returns (sfree b.pointer) u () v)
    (served : Returns (smalloc n) v q w) (handed : q ≠ 0) :
    ∃ mid m, WellFormed v mid ∧ m ∈ mid ∧ FellBack s b n v w q m := by
  obtain ⟨pre, post, rfl⟩ := List.append_of_mem member
  have sound := formed.sound grounded mappings
  have tiled := sound.tiled
  have shown : Shown pre := fun c listed => sound.shown c (by simp [listed])
  obtain ⟨least, most, even⟩ := roundUp_le (n := n)
  have request : n ≤ 100000000 := by
    by_contra beyond
    exact handed (served.unique (smalloc_outside v [] (Or.inr (by omega))).2).1
  obtain ⟨nowhere, rfl⟩ := tryMergeRealloc_null tiled live sound.wilderness shown mappings.apart
    (by omega) (by omega) even null willing
  obtain ⟨_, mid, run, merged⟩ := sfree_returns tiled live small shown
  obtain ⟨_, rfl⟩ := freed.unique run
  have between := (merged.transfer sound live).sound
  have short := sound.short (n := roundUp n) (by omega) (Or.inl nowhere)
  obtain ⟨_, _, new, run', outcome, sparing, widens, _⟩ := smalloc_served between n
  obtain ⟨rfl, rfl⟩ := served.unique run'
  cases outcome with
  | refused _ nothing => exact absurd nothing handed
  | granted _ capacity fits transfer =>
    obtain ⟨rest, _, after, _⟩ := transfer.ledger
    have target : (q, capacity) ∈ owned new w.maps := after.mem_iff.mpr (by simp)
    have states : blockSize w q = capacity := (transfer.sound.capacity target).2.2
    have room : roundUp n ≤ capacity := (smalloc_room between served handed).trans states.le
    obtain ⟨covers, within, readable⟩ :=
      merged.length tiled between served sparing widens transfer short
    obtain ⟨low, free, high⟩ := tiled.merged_inside
    have remains : ∀ i, i < b.size → w.bytes (b.pointer + i) = u.bytes (b.pointer + i) :=
      fun i inside => merged.remains tiled sparing short inside
    have well := merged.well_formed formed
    refine ⟨mid, b.merged pre post, well, merged.block,
      { absorbed := ⟨free, low, by simp only [Block.extent_eq]; omega⟩
        stored := well.stored _ merged.block
        apart := ?_
        intact := fun i inside => ⟨?_, remains i inside⟩
        fits := states ▸ within
        copied := ?_ }⟩
    · obtain ⟨front, _, back, _, _, _, same⟩ := merged.split
      have inner := merged.inner sound nowhere same
      have whole := well.whole
      rw [same] at transfer between whole
      exact transfer.apart between whole widens free (by omega) inner
    · refine merged.frame fun record => ?_
      exact payload_clear tiled.tiles (b := b) (by simp) (by simp only [Block.pointer, SOM]; omega)
        (by simp only [Block.pointer, SOM]; omega) record
    · have reads : Returns (readSize (b.pointer - SOM)) w (size w.bytes b.address) w := by
        simp only [Block.pointer, Nat.add_sub_cancel]
        exact readSize_returns (widens.mapped (merged.evolves.toEvolves.widens.mapped
          (tiled.header_mapped (b := b) (by simp)).1))
      have writable : w.Mapped q (size w.bytes b.address) :=
        (transfer.sound.payload_mapped target).sub (Nat.le_refl _) (by simp only; omega)
      have run : Returns (relocate b.pointer n) u q _ :=
        Returns.bind freed (Returns.bind served (Returns.bind reads
          (Returns.bind (memmove_returns readable writable) Returns.pure)))
      refine ⟨_, (srealloc_grows_step sound small larger request).trans (null.step.trans run),
        fun i inside => ?_⟩
      exact (copy_inside _ _ _ _ _ (by omega)).trans (remains i inside)

/-- The steps of a resize to 120 bytes of the block at 4176, up to the copy. -/
def fallsBack : Alloc (Nat × Nat) := do
  let payload ← tryMergeRealloc 4176 120
  sfree 4208
  let address ← smalloc 120
  pure (payload, address)

/-- A block of 24 bytes between a free one of 16 bytes and one in use moves. -/
theorem srealloc_falls_back_sample : ∃ sys v w q mid m,
    run (pageLaunch (List.replicate 4 (.grant 0 fun _ => 1)))
      [.smalloc 16, .smalloc 24, .smalloc 8, .sfree 4128] = .ok sys ∧
    WellFormed v mid ∧ m ∈ mid ∧ FellBack sys.state ⟨4176, 24, false, false⟩ 120 v w q m := by
  obtain ⟨sys, reached, formed, grounded, mappings, test⟩ := modest_test
    (pageLaunch (List.replicate 4 (.grant 0 fun _ => 1)))
    [.smalloc 16, .smalloc 24, .smalloc 8, .sfree 4128]
    [⟨4096, 16, true, true⟩, ⟨4176, 24, false, false⟩, ⟨4264, 8, false, false⟩]
    (fun s => decide (¬SbrkFails s 4176 120) &&
      decide ((fallsBack s).toOption.map Prod.fst = some (0, 4368)))
    (by decide) (by decide +kernel) (by decide +kernel)
  obtain ⟨willing, moved⟩ := Bool.and_eq_true_iff.mp test
  replace moved := of_decide_eq_true moved
  cases steps : fallsBack sys.state with
  | error fault => simp [steps, Except.toOption] at moved
  | ok last =>
    obtain ⟨⟨payload, address⟩, t⟩ := last
    simp only [steps, Except.toOption, Option.map_some, Option.some.injEq, Prod.mk.injEq] at moved
    obtain ⟨rfl, rfl⟩ := moved
    obtain ⟨_, u, null, rest⟩ := Returns.of_bind steps
    obtain ⟨_, v, freed, rest⟩ := Returns.of_bind rest
    obtain ⟨_, w, served, rest⟩ := Returns.of_bind rest
    obtain ⟨same, _⟩ := rest.unique Returns.pure
    obtain ⟨rfl, rfl⟩ := Prod.mk.inj same
    have small : (24 : Nat) < MMAP_THRESHOLD := by decide
    obtain ⟨mid, m, after, member, fell⟩ := srealloc_falls_back formed grounded mappings
      (b := ⟨4176, 24, false, false⟩) (n := 120) (by simp) rfl small (by simp) null
      (of_decide_eq_true willing) freed served (by simp)
    exact ⟨sys, v, w, _, mid, m, reached, after, member, fell⟩

end OperatingSystems.Malloc3
