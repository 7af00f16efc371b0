import OperatingSystems.Malloc3.Frees

/-!
# Requesting a block and freeing it

A request that is served by a free block below the threshold, whole or split,
leaves the other blocks in use as they are. Freeing what it returned brings back
the blocks in use of before, and so the heap of before.
-/

namespace OperatingSystems.Malloc3

open Bytes Process MallocMetadata Tiling Runs

variable {s t : State} {pre post blocks : List Block} {b c : Block} {n : Nat}

/-- The break stays when a free block below the threshold serves the request. -/
theorem reuseBlock_brk (tiled : Tiled s (pre ++ b :: post)) (request : n ≤ 100000007)
    (small : b.size < MMAP_THRESHOLD) (shown : Shown pre) {q : Nat}
    (run : Returns (reuseBlock n b.address) s q t) : q = b.address + 32 ∧ t.brk = s.brk := by
  by_cases room : n + 192 ≤ b.size
  · obtain ⟨u, _, split, _⟩ := splitBlock_returns tiled room (by omega) shown
    obtain ⟨rfl, rfl⟩ := run.unique (reuseBlock_split tiled request room split)
    exact ⟨rfl, splitBlock_brk tiled room (by omega) shown split⟩
  · obtain ⟨rfl, rfl⟩ := run.unique (reuseBlock_whole tiled request room)
    exact ⟨rfl, rfl⟩

/-- What a request served by a free block below the threshold comes to: a block in
use more, at the place of the free one. -/
structure Reused (s : State) (blocks : List Block) (b : Block) (t : State) (new : List Block)
    (c : Block) : Prop where
  evolves : EvolvesExactly s blocks t new
  used : (inUse new).Perm (c :: inUse blocks)
  address : c.address = b.address
  brk : t.brk = s.brk

/-- `smalloc` when the block that the search finds is below the threshold. -/
theorem smalloc_reuses (formed : WellFormed s blocks) (grounded : Grounded s) (mappings : Mappings s)
    (best : BestFit blocks (roundUp n) b) (small : b.size < MMAP_THRESHOLD) (positive : 0 < n) :
    ∃ t new c, Returns (smalloc n) s c.pointer t ∧ Reused s blocks b t new c := by
  have tiled := formed.tiled grounded
  have shown : Shown blocks := fun c member foot => formed.agree c member ▸ foot
  have fits := best.fits
  obtain ⟨least, most, even⟩ := roundUp_le (n := n)
  have below : roundUp n < 128 * 1024 := lt_of_le_of_lt fits small
  have proper : b.address ≠ 0 := by
    have := tiled.tiles.within best.member
    have := tiled.proper
    omega
  have search : Returns (searchFreeBlock (roundUp n)) s b.address s := by
    rcases searchFreeBlock_cases tiled (roundUp n) with ⟨_, none⟩ | ⟨c, other, run⟩
    · have := none b best.member best.free
      omega
    · rwa [best.unique other]
  have cut : SmallCut b.size (roundUp n) := by
    intro split
    unfold splits at split
    omega
  obtain ⟨pre, post, rfl⟩ := List.append_of_mem best.member
  have before : Shown pre := fun c member => shown c (by simp [member])
  obtain ⟨t, new, c, run, allocated, _, exactly⟩ := reuseBlock_returns tiled best.free best.fits
    (by omega) even before mappings.apart
  obtain ⟨address, brk⟩ := reuseBlock_brk tiled (by omega) small before run
  refine ⟨t, new, c, ?_, exactly cut, allocated.used, by omega, brk⟩
  exact Returns.ifNeg (by omega) (Returns.ifPos (by omega)
    (Returns.bind search (Returns.ifPos proper run)))

/-- The new block is no larger than the free one. -/
theorem Reused.size_le {new : List Block} (reused : Reused s blocks b t new c)
    (formed : WellFormed s blocks) (grounded : Grounded s) (member : b ∈ blocks)
    (free : b.free = true) : c.size ≤ b.size := by
  have tiled := formed.tiled grounded
  have after := reused.evolves.tiled.tiles
  have listed : c ∈ new := (mem_inUse.mp (reused.used.mem_iff.mpr (by simp))).1
  rw [reused.evolves.heapStart] at after
  obtain ⟨pre, post, rfl⟩ := List.append_of_mem member
  have place := formed.whole.room free tiled.tiles after
    (fun d known live => ⟨(mem_inUse.mp (reused.used.mem_iff.mpr
      (List.mem_cons_of_mem _ (mem_inUse.mpr ⟨known, live⟩)))).1, ?_⟩) (fun _ => reused.brk.le) listed
  · have address := reused.address
    rw [Block.extent_eq, Block.extent_eq] at place
    omega
  · rintro rfl
    have same := tiled.tiles.unique Block.extent_pos known member reused.address
    rw [same, free] at live
    exact absurd live (by simp)

/-- Freeing the new block brings the heap back. -/
theorem Reused.freed {new : List Block} (reused : Reused s blocks b t new c)
    (formed : WellFormed s blocks) (grounded : Grounded s) (member : b ∈ blocks)
    (free : b.free = true) (small : b.size < MMAP_THRESHOLD) :
    ∃ u, Returns (sfree c.pointer) t () u ∧ Alike s u blocks := by
  have evolves := reused.evolves
  have fits := reused.size_le formed grounded member free
  obtain ⟨listed, live⟩ := mem_inUse.mp (reused.used.mem_iff.mpr List.mem_cons_self)
  have now : WellFormed t new := evolves.tiled.well_formed (evolves.coalesced formed.whole)
    (evolves.wilderness formed.wilderness) (evolves.counters formed.counters)
  obtain ⟨pre, post, rfl⟩ := List.append_of_mem listed
  obtain ⟨u, final, run, merged⟩ := sfree_returns evolves.tiled live (by omega)
    fun d known foot => now.agree d (by simp [known]) ▸ foot
  have after := merged.well_formed now
  have rest := merged.rest
  have used : (inUse final).Perm (inUse blocks) := by
    have others : inUse final = inUse pre ++ inUse post := by
      rw [merged.fuses.inUse]
      simp
    have before := reused.used
    rw [inUse_append, inUse_cons, if_neg (by simp [live])] at before
    rw [others]
    exact (List.perm_middle.symm.trans before).cons_inv
  have origin : u.globals.sbrkStart = s.globals.sbrkStart := by
    rw [merged.tiled.origin, show u.heapStart = t.heapStart by rw [rest]; rfl, evolves.heapStart,
      grounded.origin]
  have tiles := after.tiles
  rw [origin, show u.brk = s.brk by rw [rest]; exact reused.brk] at tiles
  obtain rfl := after.whole.determined formed.whole tiles formed.tiles
    (inUse_eq tiles formed.tiles fun d => used.mem_iff)
  exact ⟨u, run, formed.alike after origin (by rw [rest]; exact evolves.maps)⟩

/-- A request that a free block below the threshold serves returns the payload of that
block, and its release leaves the heap as it was. The break does not move in
between. -/
theorem smalloc_sfree (formed : WellFormed s blocks) (grounded : Grounded s) (mappings : Mappings s)
    (n a : Nat) (chosen : Returns (searchFreeBlock (roundUp n)) s a s) (found : a ≠ 0)
    (small : size s.bytes a < MMAP_THRESHOLD) :
    ∃ q t u, Returns (smalloc n) s q t ∧ (0 < n → q = a + 32) ∧ t.brk = s.brk ∧
      Returns (sfree q) t () u ∧ Alike s u blocks := by
  rcases Nat.eq_zero_or_pos n with rfl | positive
  · exact ⟨0, s, s, Returns.ifPos (Or.inl rfl) Returns.pure, by simp, rfl, sfree_null,
      formed.alike formed rfl rfl⟩
  have tiled := formed.tiled grounded
  rcases searchFreeBlock_cases tiled (roundUp n) with ⟨none, _⟩ | ⟨b, best, run⟩
  · exact absurd (chosen.unique none).1 found
  obtain ⟨rfl, _⟩ := chosen.unique run
  rw [(tiled.stored b best.member).size] at small
  obtain ⟨t, new, c, served, reused⟩ := smalloc_reuses formed grounded mappings best small positive
  obtain ⟨u, freed, alike⟩ := reused.freed formed grounded best.member best.free small
  exact ⟨c.pointer, t, u, served, fun _ => congrArg (· + 32) reused.address, reused.brk, freed, alike⟩

/-- A request that is served from a free block of 400 bytes. -/
theorem smalloc_sfree_sample : ∃ sys q t u,
    run (pageLaunch [.grant 0 (fun _ => 1), .grant 0 (fun _ => 2)])
      [.smalloc 400, .smalloc 8, .sfree 4128] = .ok sys ∧
    Returns (smalloc 100) sys.state q t ∧ q = 4128 ∧ t.brk = sys.state.brk ∧ Returns (sfree q) t () u ∧
    Alike sys.state u [⟨4096, 400, true, true⟩, ⟨4560, 8, false, false⟩] := by
  obtain ⟨sys, reached, formed, grounded, mappings, _⟩ := modest_test
    (pageLaunch [.grant 0 (fun _ => 1), .grant 0 (fun _ => 2)])
    [.smalloc 400, .smalloc 8, .sfree 4128]
    [⟨4096, 400, true, true⟩, ⟨4560, 8, false, false⟩]
    (fun _ => true) (by decide) (by decide +kernel) (by decide +kernel)
  have sized := (formed.stored ⟨4096, 400, true, true⟩ (by simp)).size
  rcases searchFreeBlock_cases (formed.tiled grounded) 104 with ⟨_, none⟩ | ⟨b, best, chosen⟩
  · exact absurd (none ⟨4096, 400, true, true⟩ (by simp) rfl) (by decide)
  · have free := best.free
    have member := best.member
    simp only [List.mem_cons, List.not_mem_nil, or_false] at member
    rcases member with rfl | rfl
    · obtain ⟨q, t, u, served, place, brk, freed, alike⟩ :=
        smalloc_sfree formed grounded mappings 100 4096 chosen (by decide) (sized ▸ by decide)
      exact ⟨sys, q, t, u, reached, served, place (by decide), brk, freed, alike⟩
    · exact absurd free (by decide)

end OperatingSystems.Malloc3
