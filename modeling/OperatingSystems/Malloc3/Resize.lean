import OperatingSystems.Malloc3.Allocate

/-!
# Resizing a block

A request that the block already satisfies leaves it, or cuts off its end when
that leaves room for a block. The cut is made by the code for free blocks, so
the live block is counted as free for its duration.
-/

namespace OperatingSystems.Malloc3

open Bytes Process MallocMetadata Tiling

variable {s t : State} {pre post blocks new : List Block} {b : Block} {n : Nat}

/-- Cutting a live block that is counted as free for the time of the cut. -/
theorem splitLive_returns (tiled : Tiled s (pre ++ b :: post)) (live : b.free = false)
    (room : n + 192 ≤ b.size) (shown : Shown pre) (apart : MapsApart s) :
    ∃ t new, Returns (splitLive n b.address) s () t ∧ Evolves s (pre ++ b :: post) t new ∧
      inUse new = inUse pre ++ b.low n :: inUse post ∧
      (n % 8 = 0 → Aligned (pre ++ b :: post) → Aligned new) ∧
      (b.size - n - 64 < MMAP_THRESHOLD → EvolvesExactly s (pre ++ b :: post) t new) := by
  have header := tiled.header_mapped (b := b) (by simp)
  have stored := tiled.stored b (by simp)
  obtain ⟨u, isCounted⟩ : ∃ u, u = withStatistics s (s.globals.statistics.update 0 1 0 b.size 0) :=
    ⟨_, rfl⟩
  have counted : Tiled u (pre ++ b :: post) := by
    rw [isCounted]
    exact tiled.congr rfl
  have counts : Returns (updateStatistics 0 1 0 b.size 0) s () u := by
    rw [isCounted]
    exact updateStatistics_returns
  obtain ⟨t, new, run, cut, divides⟩ := splitBlock_outcome counted room shown
    (by rw [isCounted]; exact apart)
  have evolves : Evolves s (pre ++ b :: post) t new := by
    have moved := cut.evolves
    rw [isCounted] at moved
    exact ⟨moved.tiled, moved.wilderness, moved.shown, moved.heapStart, moved.maps, moved.grows,
      moved.apart, moved.frame⟩
  refine ⟨t, new, Returns.bind ((readSize_returns header.1).to stored.size)
    (Returns.bind counts run), evolves, cut.used, cut.aligned, fun small => ?_⟩
  have divided := divides small
  rw [isCounted] at divided
  refine ⟨evolves, fun exact => ?_, fun coalesced => ?_, divided.strays⟩
  · apply divided.counters
    simp only [withStatistics, exact]
    refine tally_update ?_ ?_ ?_ ?_ ?_ <;> simp [live] <;> omega
  · obtain ⟨inFront, inBack, _⟩ := coalesced_iff.mp coalesced
    exact divided.coalesced inFront inBack

end OperatingSystems.Malloc3
