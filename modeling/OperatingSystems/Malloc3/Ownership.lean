import OperatingSystems.Malloc3.Resize
import OperatingSystems.Payloads

/-!
# What the allocator has handed out

A payload belongs to the client from the call that returns it to the call that
takes it back. It is the payload of a block in use, or what follows the header
of a mapping. `Sound` is what every call needs of the state it starts in;
`Exact` adds what holds as long as no large block was freed into the heap. A
`Transfer` is what a call looks like from the client: some payloads are given
back, some are handed out, and the bytes of all others stay as they are.
-/

namespace OperatingSystems.Malloc3

open Bytes Process MallocMetadata Tiling Payloads

variable {s t : State} {old new blocks : List Block} {p n : Nat}

/-- A mapping holds one large block in use, behind its header. -/
structure HoldsBlock (bytes : Memory) (region : Nat × Nat) : Prop where
  proper : 0 < region.1
  page : region.1 % 4096 = 0
  sized : size bytes region.1 + 32 = region.2
  live : isFree bytes region.1 = false
  large : MMAP_THRESHOLD ≤ size bytes region.1
  bounded : region.1 + region.2 < 2 ^ 64

/-- A mapping depends on its header only. -/
theorem HoldsBlock.frame {left right : Memory} {changed : Set Nat} {region : Nat × Nat}
    (holds : HoldsBlock right region) (frame : Set.EqOn left right changedᶜ)
    (header : ∀ x, region.1 ≤ x → x < region.1 + 32 → x ∉ changed) : HoldsBlock left region := by
  have sized := size_frame (a := region.1) frame fun x low high => header x low (by omega)
  have flag := isFree_frame (a := region.1) frame fun x low high =>
    header x (by omega) (by omega)
  exact ⟨holds.proper, holds.page, sized ▸ holds.sized, flag ▸ holds.live, sized ▸ holds.large, holds.bounded⟩

/-- The mappings hold one block each, clear of the heap and of one another. -/
structure Mappings (s : State) : Prop where
  apart : MapsApart s
  holds : ∀ region ∈ s.maps, HoldsBlock s.bytes region
  separate : s.maps.Pairwise fun x y => x.1 + x.2 ≤ y.1 ∨ y.1 + y.2 ≤ x.1

/-- The heap is tiled, the wilderness is its last block, and the mappings are
in order. -/
structure Sound (s : State) (blocks : List Block) : Prop where
  tiled : Tiled s blocks
  wilderness : s.globals.blockList.wilderness = lastAddress blocks
  shown : Shown blocks
  mappings : Mappings s

/-- The heap is coalesced, the counters are exact, and nothing but mappings was
ever passed to `munmap`. -/
structure Exact (s : State) (blocks : List Block) : Prop where
  coalesced : Coalesced blocks
  counters : s.globals.statistics = tally blocks s.maps
  strays : s.strayUnmaps = []

/-- A step that keeps the heap exact, as far as it was. -/
structure Keeps (s : State) (old : List Block) (t : State) (new : List Block) : Prop where
  coalesced : Coalesced old → Coalesced new
  counters : s.globals.statistics = tally old s.maps → t.globals.statistics = tally new t.maps
  strays : t.strayUnmaps = s.strayUnmaps

theorem Keeps.exact (keeps : Keeps s old t new) (exact : Exact s old) : Exact t new :=
  ⟨keeps.coalesced exact.coalesced, keeps.counters exact.counters, keeps.strays.trans exact.strays⟩

theorem Keeps.refl (s : State) (blocks : List Block) : Keeps s blocks s blocks := ⟨id, id, rfl⟩

theorem Keeps.trans {u : State} {final : List Block} (first : Keeps s old t new)
    (second : Keeps t new u final) : Keeps s old u final :=
  ⟨second.coalesced ∘ first.coalesced, second.counters ∘ first.counters,
    second.strays.trans first.strays⟩

/-- The payloads in the hands of the client, each with its capacity. -/
def owned (blocks : List Block) (maps : List (Nat × Nat)) : List (Nat × Nat) :=
  (inUse blocks).map (fun b => (b.address + 32, b.size)) ++
    maps.map fun region => (region.1 + 32, region.2 - 32)

/-- The cells of all headers and footers. -/
def metadata (blocks : List Block) (maps : List (Nat × Nat)) : Set Nat :=
  records blocks ∪ {x | ∃ region ∈ maps, region.1 ≤ x ∧ x < region.1 + 32}

theorem mem_owned {o : Nat × Nat} {maps : List (Nat × Nat)} : o ∈ owned blocks maps ↔
    (∃ b ∈ blocks, b.free = false ∧ o = (b.address + 32, b.size)) ∨
      ∃ region ∈ maps, o = (region.1 + 32, region.2 - 32) := by
  simp only [owned, List.mem_append, List.mem_map, mem_inUse, and_assoc, eq_comm]

/-- The mappings end behind their headers. -/
theorem Mappings.length (mappings : Mappings s) {region : Nat × Nat} (member : region ∈ s.maps) :
    MMAP_THRESHOLD + 32 ≤ region.2 := by
  have holds := mappings.holds region member
  have := holds.sized
  have := holds.large
  omega

/-- Every block lies in the heap. -/
theorem Sound.within (sound : Sound s blocks) {b : Block} (member : b ∈ blocks) :
    s.heapStart ≤ b.address ∧ b.address + b.size + 64 ≤ s.brk :=
  sound.tiled.within member

/-- Two payloads have a record between them. -/
theorem Sound.separate (sound : Sound s blocks) : (owned blocks s.maps).Pairwise
    fun x y => x.1 + x.2 + 32 ≤ y.1 ∨ y.1 + y.2 + 32 ≤ x.1 := by
  refine List.pairwise_append.mpr ⟨?_, ?_, ?_⟩
  · refine List.pairwise_map.mpr ((sound.tiled.tiles.pairwise.filter _).imp fun {b c} ordered => ?_)
    rw [b.extent_eq] at ordered
    exact Or.inl (by simp only; omega)
  · refine List.pairwise_map.mpr (sound.mappings.separate.imp_of_mem fun {x y} inX inY clear => ?_)
    have := sound.mappings.length inX
    have := sound.mappings.length inY
    simp only
    omega
  · intro left inHeap right inMaps
    obtain ⟨b, member, rfl⟩ := List.mem_map.mp inHeap
    obtain ⟨region, listed, rfl⟩ := List.mem_map.mp inMaps
    have := sound.within (mem_inUse.mp member).1
    have := sound.mappings.length listed
    have := sound.mappings.apart region listed
    simp only
    omega

/-- A payload is known by its address. -/
theorem Sound.distinct (sound : Sound s blocks) : ((owned blocks s.maps).map Prod.fst).Nodup := by
  refine List.pairwise_map.mpr (sound.separate.imp fun {x y} clear same => ?_)
  omega

/-- No payload shares a cell with a header or a footer. -/
theorem Sound.clear (sound : Sound s blocks) :
    Disjoint (payloadCells (owned blocks s.maps)) (metadata blocks s.maps) := by
  refine Set.disjoint_left.mpr fun x payload record => ?_
  obtain ⟨o, member, low, high⟩ := payload
  rcases mem_owned.mp member with ⟨b, listed, _, rfl⟩ | ⟨region, listed, rfl⟩
  · have place := sound.within listed
    rcases record with inHeap | ⟨other, known, inside⟩
    · exact payload_clear sound.tiled.tiles listed low high inHeap
    · have := sound.mappings.apart other known
      simp only at low high
      omega
  · have size := sound.mappings.length listed
    have apart := sound.mappings.apart region listed
    simp only at low high
    rcases record with inHeap | ⟨other, known, inside⟩
    · have := records_within sound.tiled.tiles inHeap
      simp only [Set.mem_Ico] at this
      omega
    · by_cases same : other = region
      · subst same
        omega
      · have symmetric : Std.Symm fun x y : Nat × Nat =>
            x.1 + x.2 ≤ y.1 ∨ y.1 + y.2 ≤ x.1 := ⟨fun _ _ => Or.symm⟩
        have := sound.mappings.separate.forall known listed same
        omega

/-- What a call does from the client's point of view: some payloads are taken
back, some are given, and the others keep their bytes. -/
structure Transfer (s : State) (old : List Block) (t : State) (new : List Block)
    (taken given : List (Nat × Nat)) : Prop where
  sound : Sound t new
  ledger : ∃ rest, (owned old s.maps).Perm (taken ++ rest) ∧
    (owned new t.maps).Perm (given ++ rest) ∧ Set.EqOn t.bytes s.bytes (payloadCells rest)

/-- The bytes of one payload are found in another, as far as both reach. -/
def Carried (s t : State) (source target : Nat × Nat) : Prop :=
  ∀ i, i < source.2 → i < target.2 → t.bytes (target.1 + i) = s.bytes (source.1 + i)

/-- A call that only uses up an answer transfers nothing. -/
theorem Sound.answered (sound : Sound s blocks) : Sound (answered s) blocks where
  tiled := sound.tiled.congr rfl
  wilderness := sound.wilderness
  shown := sound.shown
  mappings := ⟨sound.mappings.apart, sound.mappings.holds, sound.mappings.separate⟩

/-- Outside the heap a step changes nothing. -/
theorem Evolves.outside (evolves : Evolves s old t new) (sound : Sound s old) {x : Nat}
    (outside : x < s.heapStart ∨ t.brk ≤ x) : t.bytes x = s.bytes x := by
  apply evolves.frame
  have grows := evolves.grows
  rintro ((before | after) | fresh)
  · have := records_within sound.tiled.tiles before
    simp only [Set.mem_Ico] at this
    omega
  · have := records_within evolves.tiled.tiles after
    rw [evolves.heapStart] at this
    simp only [Set.mem_Ico] at this
    omega
  · simp only [Set.mem_Ico] at fresh
    have := sound.tiled.tiles.le
    omega

/-- A step of the heap keeps the state sound. -/
theorem Evolves.sound (evolves : Evolves s old t new) (sound : Sound s old) : Sound t new where
  tiled := evolves.tiled
  wilderness := evolves.wilderness sound.wilderness
  shown := evolves.shown sound.shown
  mappings := by
    have apart := evolves.apart sound.mappings.apart
    refine ⟨apart, fun region member => ?_, evolves.maps ▸ sound.mappings.separate⟩
    have place := apart region member
    rw [evolves.maps] at member
    have length := sound.mappings.length member
    rw [evolves.heapStart] at place
    have same : Set.EqOn t.bytes s.bytes (cells region.1 32)ᶜᶜ := by
      rw [compl_compl]
      rintro x ⟨low, high⟩
      exact evolves.outside sound (by omega)
    exact (sound.mappings.holds region member).frame same fun x low high out => out ⟨low, high⟩

/-- A step of the heap that keeps it coalesced and counted. -/
theorem EvolvesExactly.keeps (evolves : EvolvesExactly s old t new) : Keeps s old t new :=
  ⟨evolves.coalesced, evolves.counters, evolves.strays⟩

/-- A cell of a payload that stays handed out keeps its byte. -/
theorem Evolves.kept (evolves : Evolves s old t new) (sound : Sound s old) :
    Set.EqOn t.bytes s.bytes
      (payloadCells (owned old s.maps) ∩ payloadCells (owned new t.maps)) := by
  have after := evolves.sound sound
  rintro x ⟨before, now⟩
  have clearBefore := Set.disjoint_left.mp sound.clear before
  have clearNow := Set.disjoint_left.mp after.clear now
  by_cases outside : x < s.heapStart ∨ t.brk ≤ x
  · exact evolves.outside sound outside
  · apply evolves.frame
    rintro ((inOld | inNew) | fresh)
    · exact clearBefore (Or.inl inOld)
    · exact clearNow (Or.inl inNew)
    · obtain ⟨o, member, low, high⟩ := before
      rcases mem_owned.mp member with ⟨b, listed, _, rfl⟩ | ⟨region, listed, rfl⟩
      · have := sound.within listed
        simp only at high
        exact absurd fresh.1 (by omega)
      · rw [← evolves.maps] at listed
        have apart := after.mappings.apart region listed
        rw [evolves.heapStart] at apart
        simp only at low high
        omega

/-- A step of the heap is a transfer of what left and what joined the blocks in
use. -/
theorem Evolves.transfer (evolves : Evolves s old t new) (sound : Sound s old)
    {left joined rest : List Block} (before : (inUse old).Perm (left ++ rest))
    (after : (inUse new).Perm (joined ++ rest)) :
    Transfer s old t new (left.map fun b => (b.address + 32, b.size))
      (joined.map fun b => (b.address + 32, b.size)) where
  sound := evolves.sound sound
  ledger := by
    obtain ⟨others, isOthers⟩ : ∃ others, others = rest.map (fun b => (b.address + 32, b.size)) ++
      s.maps.map fun region => (region.1 + 32, region.2 - 32) := ⟨_, rfl⟩
    have ledgerBefore : (owned old s.maps).Perm
        (left.map (fun b => (b.address + 32, b.size)) ++ others) := by
      rw [isOthers, ← List.append_assoc, ← List.map_append]
      exact (before.map _).append_right _
    have ledgerAfter : (owned new t.maps).Perm
        (joined.map (fun b => (b.address + 32, b.size)) ++ others) := by
      rw [isOthers, ← List.append_assoc, ← List.map_append]
      unfold owned
      rw [evolves.maps]
      exact (after.map _).append_right _
    refine ⟨others, ledgerBefore, ledgerAfter, (evolves.kept sound).mono
      (Set.subset_inter (payloadCells_mono fun o member => ?_) (payloadCells_mono fun o member => ?_))⟩
    · exact ledgerBefore.mem_iff.mpr (by simp [member])
    · exact ledgerAfter.mem_iff.mpr (by simp [member])

/-- A block that a step shortens or extends in place carries its payload. -/
theorem Evolves.carried (evolves : Evolves s old t new) (sound : Sound s old) {b c : Block}
    (before : b ∈ old) (after : c ∈ new) (address : c.address = b.address) :
    Carried s t (b.address + 32, b.size) (c.address + 32, c.size) := by
  intro i inSource inTarget
  simp only at inSource inTarget ⊢
  rw [address]
  exact evolves.payload sound.tiled.tiles before after (by omega) (by omega) (by omega) (by omega)

end OperatingSystems.Malloc3
