import OperatingSystems.Malloc3.Release

/-!
# Splitting a block

`splitBlock` cuts a block in two, marks both parts in use and frees the upper
one. The counters it assumes are those of a free block; a caller that splits a
live block first counts it as free. The upper part either merges with what
follows it or, when it is not smaller than the threshold, is taken for a
mapping like any other block of that size.
-/

namespace OperatingSystems.Malloc3

open Bytes Process MallocMetadata Tiling

variable {s t : State} {pre post new : List Block} {b : Block} {n : Nat}

/-- The lower part of a split block. -/
def Block.low (b : Block) (n : Nat) : Block := ⟨b.address, n, false, false⟩

/-- The upper part, before it is freed. -/
def Block.high (b : Block) (n : Nat) : Block := ⟨b.address + n + 64, b.size - n - 64, false, false⟩

@[simp] theorem Block.low_address : (b.low n).address = b.address := rfl
@[simp] theorem Block.low_size : (b.low n).size = n := rfl
@[simp] theorem Block.low_free : (b.low n).free = false := rfl
@[simp] theorem Block.low_foot : (b.low n).foot = false := rfl
@[simp] theorem Block.high_address : (b.high n).address = b.address + n + 64 := rfl
@[simp] theorem Block.high_size : (b.high n).size = b.size - n - 64 := rfl
@[simp] theorem Block.high_free : (b.high n).free = false := rfl
@[simp] theorem Block.high_foot : (b.high n).foot = false := rfl

/-- The guard of a split wraps around for a request near the block's size, and
then fails: it asks for room for two records and the least payload. -/
theorem splits_iff {k n : Nat} (sized : k < 2 ^ 64) (request : n ≤ 100000007) :
    splits k n ↔ n + 192 ≤ k := by
  unfold splits wrapSub
  simp only [SOM, MIN_SPLIT_SIZE]
  omega

/-- The two subtractions of a split do not wrap when its guard holds. -/
theorem upperSize_eq {blockSize n : Nat} (sized : blockSize < 2 ^ 64) (room : n + 64 ≤ blockSize) :
    wrapSub (wrapSub blockSize n) (2 * 32) = blockSize - n - 64 := by
  rw [wrapSub_eq (by omega) sized, wrapSub_eq (by omega) (by omega)]

/-- The bytes after `splitBlock` has written both headers. -/
def cutHeaders (bytes : Memory) (b : Block) (n : Nat) : Memory :=
  setFree (setSize (setFree (setSize bytes (b.address + n + 64) (b.size - n - 64))
    (b.address + n + 64) false) b.address n) b.address false

/-- Both headers are written as the parts need them, and nothing else is. -/
theorem cutHeaders_fields (bytes : Memory) (small : b.size < 2 ^ 64) (room : n + 64 ≤ b.size) :
    size (cutHeaders bytes b n) b.address = n ∧
      isFree (cutHeaders bytes b n) b.address = false ∧
      size (cutHeaders bytes b n) (b.address + n + 64) = b.size - n - 64 ∧
      isFree (cutHeaders bytes b n) (b.address + n + 64) = false ∧
      Set.EqOn (cutHeaders bytes b n) bytes
        (cells b.address 9 ∪ cells (b.address + n + 64) 9)ᶜ := by
  have lowFlag : ∀ m flag, Set.EqOn (setFree m b.address flag) m (cells (b.address + 8) 1)ᶜ :=
    fun _ _ => setFree_outside
  have lowSize : ∀ m, Set.EqOn (setSize m b.address n) m (cells b.address 8)ᶜ :=
    fun _ => setSize_outside
  have highFlag : ∀ m flag, Set.EqOn (setFree m (b.address + n + 64) flag) m
      (cells (b.address + n + 64 + 8) 1)ᶜ := fun _ _ => setFree_outside
  have highSize : ∀ m value, Set.EqOn (setSize m (b.address + n + 64) value) m
      (cells (b.address + n + 64) 8)ᶜ := fun _ _ => setSize_outside
  unfold cutHeaders
  refine ⟨?_, isFree_setFree, ?_, ?_, ?_⟩
  · rw [size_frame (lowFlag _ _) fun x low high => by simp only [mem_cells]; omega]
    exact size_setSize (by omega)
  · rw [size_frame (lowFlag _ _) fun x low high => by simp only [mem_cells]; omega,
      size_frame (lowSize _) fun x low high => by simp only [mem_cells]; omega,
      size_frame (highFlag _ _) fun x low high => by simp only [mem_cells]; omega]
    exact size_setSize (by omega)
  · rw [isFree_frame (lowFlag _ _) fun x low high => by simp only [mem_cells]; omega,
      isFree_frame (lowSize _) fun x low high => by simp only [mem_cells]; omega]
    exact isFree_setFree
  · intro x outside
    simp only [Set.mem_compl_iff, Set.mem_union, mem_cells, not_or, not_and, not_lt] at outside
    rw [lowFlag _ _ (by simp only [Set.mem_compl_iff, mem_cells]; omega),
      lowSize _ (by simp only [Set.mem_compl_iff, mem_cells]; omega),
      highFlag _ _ (by simp only [Set.mem_compl_iff, mem_cells]; omega),
      highSize _ _ (by simp only [Set.mem_compl_iff, mem_cells]; omega)]

theorem copyFooter_to {bytes : Memory} {a payload : Nat}
    (isCopy : bytes = copy s.bytes (a + payload + 32) a 32) (sized : size s.bytes a = payload)
    (header : s.Mapped a 32) (footer : s.Mapped (a + payload + 32) 32) :
    Returns (copyFooter a) s () (s.withBytes bytes) :=
  isCopy ▸ copyFooter_returns sized header footer

theorem memmove_to {bytes : Memory} {target source length : Nat}
    (isCopy : bytes = copy s.bytes target source length) (readable : s.Mapped source length)
    (writable : s.Mapped target length) :
    Returns (memmove target source length) s () (s.withBytes bytes) :=
  isCopy ▸ memmove_returns readable writable

/-- Writing the footers of both parts, the upper one first, makes two blocks of them. -/
theorem Opened.footed (opened : Opened s pre post b.address (b.address + b.size + 64) []
      [b.address + n + 64, b.address]) (room : n + 64 ≤ b.size) (lowSize : size s.bytes b.address = n)
    (lowFree : isFree s.bytes b.address = false)
    (highSize : size s.bytes (b.address + n + 64) = b.size - n - 64)
    (highFree : isFree s.bytes (b.address + n + 64) = false) :
    ∃ upper both,
      upper = copy s.bytes (b.address + n + 64 + (b.size - n - 64) + 32) (b.address + n + 64) 32 ∧
      both = copy upper (b.address + n + 32) b.address 32 ∧
      Tiled (s.withBytes both) (pre ++ b.low n :: b.high n :: post) ∧
      Set.EqOn both s.bytes (cells (b.address + n + 32) 32 ∪ cells (b.address + b.size + 32) 32)ᶜ := by
  obtain ⟨upper, isUpper⟩ : ∃ m, m = copy s.bytes
    (b.address + n + 64 + (b.size - n - 64) + 32) (b.address + n + 64) 32 := ⟨_, rfl⟩
  obtain ⟨both, isBoth⟩ : ∃ m, m = copy upper (b.address + n + 32) b.address 32 := ⟨_, rfl⟩
  have place : b.address + n + 64 + (b.size - n - 64) + 32 = b.address + b.size + 32 := by omega
  have foot₁ : Set.EqOn upper s.bytes (cells (b.address + b.size + 32) 32)ᶜ := by
    rw [isUpper, place]
    exact copy_outside _ _ _ _
  have foot₂ : Set.EqOn both upper (cells (b.address + n + 32) 32)ᶜ := by
    rw [isBoth]
    exact copy_outside _ _ _ _
  have storedHigh : Stored upper (b.high n) := by
    rw [isUpper]
    exact stored_copy highSize highFree
  have storedHigh : Stored both (b.high n) := storedHigh.frame foot₂
    (fun x low high => by simp only [mem_cells, Block.high_address] at low ⊢; omega)
    (fun x low high => by
      simp only [mem_cells, Block.high_address, Block.high_size] at low ⊢
      omega)
  have storedLow : Stored both (b.low n) := by
    rw [isBoth]
    exact stored_copy
      ((size_frame foot₁ fun x low high => by simp only [mem_cells]; omega).trans lowSize)
      ((isFree_frame foot₁ fun x low high => by simp only [mem_cells]; omega).trans lowFree)
  have footed := (opened.write foot₁
    (fun x inside => by simp only [mem_cells] at inside; omega)
    (fun m member x inside => by simp at member; simp only [mem_cells] at inside; omega)
    (fun m member x inside => by simp at member; simp only [mem_cells] at inside; omega)).write
    foot₂
    (fun x inside => by simp only [mem_cells] at inside; omega)
    (fun m member x inside => by simp at member; simp only [mem_cells] at inside; omega)
    (fun m member x inside => by simp at member; simp only [mem_cells] at inside; omega)
  have closed : Tiled (s.withBytes both) (pre ++ [b.low n, b.high n] ++ post) := footed.close
    (show Tile b.address [b.low n, b.high n] (b.address + b.size + 64) by
      simp [Block.extent_eq]; omega) (by simpa using ⟨storedLow, storedHigh⟩)
    (List.Perm.swap _ _ _)
  refine ⟨upper, both, isUpper, isBoth, by simpa using closed, fun x outside => ?_⟩
  rw [Set.mem_compl_iff, Set.mem_union, not_or] at outside
  exact (foot₂ outside.1).trans (foot₁ outside.2)

/-- The headers of both parts are written and put on the list. -/
theorem Opened.halved (cleared : Opened s pre post b.address (b.address + b.size + 64) [] [])
    (small : b.size < 2 ^ 64) (room : n + 64 ≤ b.size) :
    ∃ one head₁ two head₂,
      Returns (addMetadata b.address) (s.withBytes (cutHeaders s.bytes b n)) ()
        (relink (s.withBytes (cutHeaders s.bytes b n)) one head₁ 1) ∧
      Returns (addMetadata (b.address + n + 64)) (relink (s.withBytes (cutHeaders s.bytes b n)) one
        head₁ 1) () (relink s two head₂ (1 + 1)) ∧
      Opened (relink s two head₂ (1 + 1)) pre post b.address (b.address + b.size + 64) []
        [b.address + n + 64, b.address] ∧
      (size two b.address = n ∧ isFree two b.address = false) ∧
      (size two (b.address + n + 64) = b.size - n - 64 ∧
        isFree two (b.address + n + 64) = false) ∧
      Set.EqOn two s.bytes (cells b.address 9 ∪ cells (b.address + n + 64) 9 ∪
        linkCells ([b.address + n + 64, b.address] ++ (pre ++ post).map Block.address))ᶜ := by
  obtain ⟨lowSize, lowFree, highSize, highFree, cut⟩ := cutHeaders_fields s.bytes small room
  have written := cleared.write cut
    (fun x inside => by simp only [Set.mem_union, mem_cells] at inside; omega)
    (fun m member => absurd member List.not_mem_nil)
    (fun m member => absurd member List.not_mem_nil)
  obtain ⟨one, head₁, run₁, listedLow, frame₁⟩ :=
    written.add (n := b.address) (Nat.le_refl _) (by omega) (by simp)
  obtain ⟨two, head₂, run₂, listed, frame₂⟩ :=
    listedLow.add (n := b.address + n + 64) (by omega) (by omega) (by simp [Apart]; omega)
  have keptLow := written.kept (l := [b.address]) frame₁ (Nat.le_refl _) (by omega) (by simp)
  have keptHigh := written.kept (l := [b.address]) frame₁ (x := b.address + n + 64) (by omega)
    (by omega) (by simp [Apart]; omega)
  have keptLow' := listedLow.kept (l := [b.address + n + 64, b.address]) frame₂
    (Nat.le_refl _) (by omega) (by simp [Apart]; omega)
  have keptHigh' := listedLow.kept (l := [b.address + n + 64, b.address]) frame₂
    (x := b.address + n + 64) (by omega) (by omega) (by simp [Apart]; omega)
  have same : relink (relink (s.withBytes (cutHeaders s.bytes b n)) one head₁ 1) two head₂ 1 =
      relink s two head₂ (1 + 1) := by
    simp [relink, Machine.withBytes, Int.add_assoc]
  rw [same] at run₂ listed
  refine ⟨one, head₁, two, head₂, run₁, run₂, listed,
    ⟨keptLow'.1.trans (keptLow.1.trans lowSize), keptLow'.2.trans (keptLow.2.trans lowFree)⟩,
    ⟨keptHigh'.1.trans (keptHigh.1.trans highSize), keptHigh'.2.trans (keptHigh.2.trans highFree)⟩,
    (frame₂.mono ?_).trans ((frame₁.mono ?_).trans (cut.mono ?_))⟩ <;>
    apply Set.compl_subset_compl.mpr
  · exact Set.subset_union_right
  · exact (linkCells_mono (by simp)).trans Set.subset_union_right
  · exact Set.subset_union_left

/-- The links of the two parts and of the other blocks lie in records. -/
theorem halves_records {few : List Nat} (subset : few ⊆ [b.address + n + 64, b.address]) :
    linkCells (few ++ (pre ++ post).map Block.address) ⊆
      records (pre ++ b.low n :: b.high n :: post) := by
  refine (linkCells_mono fun m member => ?_).trans linkCells_records
  rcases List.mem_append.mp member with own | other
  · have := subset own
    simp only [List.mem_cons, List.not_mem_nil, or_false] at this
    rcases this with rfl | rfl <;> simp
  · obtain ⟨c, inRest, rfl⟩ := List.mem_map.mp other
    apply List.mem_map_of_mem
    rcases List.mem_append.mp inRest with before | after <;> simp [*]

/-- The part of `splitBlock` before it frees the upper half: one block has
become two blocks in use. -/
theorem splitBlock_carve (tiled : Tiled s (pre ++ b :: post)) (room : n + 64 ≤ b.size) :
    ∃ bytes head delta,
      (∀ {u : State}, Returns (do
          updateStatistics 1 (-1) (-(2 * 32)) (-(2 * 32 + n + (b.size - n - 64 : Nat))) (2 * 32)
          sfree (b.address + n + 64 + 32)
          let wilderness ← getWilderness
          doIf (b.address = wilderness) (setWilderness (b.address + n + 64)))
          (relink s bytes head delta) () u →
        Returns (splitBlock n b.address) s () u) ∧
      Tiled (relink s bytes head delta) (pre ++ b.low n :: b.high n :: post) ∧
      Set.EqOn bytes s.bytes
        (records (pre ++ b :: post) ∪ records (pre ++ b.low n :: b.high n :: post))ᶜ := by
  obtain ⟨below, middle, above⟩ := tiled.place
  have top := above.le
  have bottom := below.le
  have small := tiled.small
  have header := tiled.header_mapped (b := b) (by simp)
  have stored := tiled.stored b (by simp)
  rw [show pre ++ b :: post = pre ++ [b] ++ post by simp] at tiled
  have opened := tiled.opened below middle above
  obtain ⟨bare, head₁, run₁, cleared, frame₁⟩ := opened.remove (n := b.address) (by simp)
  simp only [List.map_cons, List.map_nil, List.erase_cons_head, List.nil_append] at cleared frame₁
  have bareSize : size bare b.address = b.size :=
    (opened.kept (l := []) frame₁ (Nat.le_refl _) (by omega) (by simp)).1.trans stored.size
  obtain ⟨one, head₂, two, head₃, run₂, run₃, listed, ⟨lowSize, lowFree⟩, ⟨highSize, highFree⟩, frame₂⟩ :=
    cleared.halved (n := n) (by omega) room
  obtain ⟨three, four, isThree, isFour, closed, footers⟩ :=
    listed.footed room lowSize lowFree highSize highFree
  have place : b.address + n + 64 + (b.size - n - 64) + 32 = b.address + b.size + 32 := by omega
  have same : (relink (relink s bare head₁ (-1)) two head₃ (1 + 1)).withBytes four =
      relink s four head₃ (-1 + (1 + 1)) := by
    simp [relink, Machine.withBytes, Int.add_assoc]
  have mappedLow : s.Mapped b.address 32 := header.1
  have mappedHigh : s.Mapped (b.address + n + 64) 32 :=
    Machine.mapped_heap (by omega) (by omega)
  have mappedFoot : s.Mapped (b.address + n + 32) 32 := Machine.mapped_heap (by omega) (by omega)
  have mappedHighFoot : s.Mapped (b.address + n + 64 + (b.size - n - 64) + 32) 32 :=
    place ▸ header.2
  refine ⟨four, head₃, -1 + (1 + 1), ?_, ?_, ?_⟩
  · intro u after
    rw [← same] at after
    have upper : wrapSub (wrapSub b.size n) (2 * SOM) = b.size - n - 64 :=
      upperSize_eq (by omega) room
    unfold splitBlock
    apply Returns.bind run₁
    apply Returns.bind (Returns.to (readSize_returns (by exact mappedLow)) bareSize)
    rw [upper]
    apply Returns.bind (writeSize_returns (by exact mappedHigh))
    apply Returns.bind (writeFree_returns (by exact mappedHigh))
    apply Returns.bind (writeSize_returns (by exact mappedLow))
    apply Returns.bind (writeFree_returns (by exact mappedLow))
    refine Returns.bind run₂ (Returns.bind run₃ ?_)
    refine Returns.bind (copyFooter_to isThree highSize (by exact mappedHigh)
      (by exact mappedHighFoot)) ?_
    apply Returns.bind (memmove_to isFour (by exact mappedLow) (by exact mappedFoot))
    have storedLow := (closed.stored (b.low n) (by simp)).size
    have storedHigh := (closed.stored (b.high n) (by simp)).size
    apply Returns.bind (Returns.to (readSize_returns (by exact mappedLow)) storedLow)
    apply Returns.bind (Returns.to (readSize_returns (by exact mappedHigh)) storedHigh)
    exact after
  · rwa [← same]
  · refine (footers.mono ?_).trans ((frame₂.mono ?_).trans (frame₁.mono ?_)) <;>
      apply Set.compl_subset_compl.mpr
    · rintro x (inside | inside) <;> simp only [mem_cells] at inside
      · exact Or.inr ⟨b.low n, by simp, Or.inr (by simpa using inside)⟩
      · exact Or.inl ⟨b, by simp, Or.inr (by omega)⟩
    · rintro x ((inside | inside) | link)
      · simp only [mem_cells] at inside
        exact Or.inl ⟨b, by simp, Or.inl (by omega)⟩
      · simp only [mem_cells] at inside
        exact Or.inr ⟨b.high n, by simp, Or.inl (by simp; omega)⟩
      · exact Or.inr (halves_records (List.Subset.refl _) link)
    · exact (halves_records (List.nil_subset _)).trans Set.subset_union_right

/-- The block at the address of the last one ends the heap. -/
theorem lastAddress_finish {low high : Nat} {blocks : List Block} (tiles : Tile low blocks high)
    (member : b ∈ blocks) (last : lastAddress blocks = b.address) :
    b.address + b.size + 64 = high := by
  obtain ⟨front, back, rfl⟩ := List.append_of_mem member
  obtain ⟨middle, _, tail⟩ := tiles_append.mp tiles
  rw [lastAddress_append_cons, lastAddress_eq tail] at last
  subst last
  have := tail.1
  have := tail.2
  rw [tiles_nil, b.extent_eq] at this
  omega

/-- What splitting the block `b` achieves, whatever its upper part is taken for:
the lower part is in use, the upper part is not. No other header changes its
size, and no cell changes but those of the records there are in between. -/
structure Cut (s : State) (pre : List Block) (b : Block) (post : List Block) (n : Nat)
    (t : State) (new : List Block) : Prop where
  evolves : Evolves s (pre ++ b :: post) t new
  used : inUse new = inUse pre ++ b.low n :: inUse post
  aligned : n % 8 = 0 → Aligned (pre ++ b :: post) → Aligned new
  sizes : ∀ c ∈ pre ++ post, size t.bytes c.address = c.size
  within : Set.EqOn t.bytes s.bytes
    (records (pre ++ b :: post) ∪ records (pre ++ b.low n :: b.high n :: post))ᶜ

/-- What it achieves when the upper part is freed: that is free alone or as part
of what follows. -/
structure Divided (s : State) (pre : List Block) (b : Block) (post : List Block) (n : Nat)
    (t : State) (new : List Block) : Prop extends Cut s pre b post n t new where
  counters : s.globals.statistics = tally (pre ++ { b with free := true } :: post) s.maps →
    t.globals.statistics = tally new t.maps
  coalesced : Coalesced pre → Coalesced post → Coalesced new
  strays : t.strayUnmaps = s.strayUnmaps

/-- `splitBlock` when the upper part is smaller than the threshold: both parts are
in use for a moment, then the upper one is freed. -/
theorem splitBlock_frees (tiled : Tiled s (pre ++ b :: post)) (room : n + 192 ≤ b.size)
    (small : b.size - n - 64 < MMAP_THRESHOLD) (shown : Shown pre) :
    ∃ bytes head delta u t new, u = withStatistics (relink s bytes head delta)
        (s.globals.statistics.update 1 (-1) (-(2 * 32))
          (-(2 * 32 + n + (b.size - n - 64 : Nat))) (2 * 32)) ∧
      Merged u (pre ++ [b.low n]) (b.high n) post t new ∧
      Returns (splitBlock n b.address) s ()
        (withWilderness t (if b.address = t.globals.blockList.wilderness then b.address + n + 64
          else t.globals.blockList.wilderness)) ∧
      Set.EqOn bytes s.bytes
        (records (pre ++ b :: post) ∪ records (pre ++ b.low n :: b.high n :: post))ᶜ := by
  obtain ⟨bytes, head, delta, run, cut, frame⟩ := splitBlock_carve tiled (n := n) (by omega)
  obtain ⟨u, isCounted⟩ : ∃ u, u = withStatistics (relink s bytes head delta)
      (s.globals.statistics.update 1 (-1) (-(2 * 32))
        (-(2 * 32 + n + (b.size - n - 64 : Nat))) (2 * 32)) := ⟨_, rfl⟩
  have counted : Tiled u ((pre ++ [b.low n]) ++ b.high n :: post) := by
    rw [isCounted, List.append_assoc]
    exact cut.congr rfl
  have shownCut : Shown (pre ++ [b.low n]) := by
    intro c member
    rcases List.mem_append.mp member with before | own
    · exact shown c before
    · obtain rfl := List.mem_singleton.mp own
      simp
  obtain ⟨t, new, free, merged⟩ := sfree_returns counted rfl small shownCut
  exact ⟨bytes, head, delta, u, t, new, isCounted, merged,
    run (Returns.bind updateStatistics_returns (Returns.bind (isCounted ▸ free)
      moveWilderness_returns)), frame⟩

/-- Then the break stays. -/
theorem splitBlock_brk (tiled : Tiled s (pre ++ b :: post)) (room : n + 192 ≤ b.size)
    (small : b.size - n - 64 < MMAP_THRESHOLD) (shown : Shown pre)
    (run : Returns (splitBlock n b.address) s () t) : t.brk = s.brk := by
  obtain ⟨_, _, _, u, _, _, isCounted, merged, same, _⟩ := splitBlock_frees tiled room small shown
  obtain ⟨_, rfl⟩ := run.unique same
  rw [merged.rest, isCounted]
  rfl

/-- The lower part of a block stays in use when the upper one is freed. -/
theorem Merged.low_listed (merged : Merged u (pre ++ [b.low n]) (b.high n) post t new) :
    inUse new = inUse pre ++ b.low n :: inUse post ∧ b.low n ∈ new := by
  have used : inUse new = inUse pre ++ b.low n :: inUse post := by
    rw [merged.fuses.inUse]
    simp
  have listed : b.low n ∈ inUse new := by simp [used]
  exact ⟨used, (mem_inUse.mp listed).1⟩

/-- The upper part, whatever it is merged with behind it, starts behind the lower one. -/
theorem Merged.high_address (n : Nat) (b : Block) (pre post : List Block) :
    ((b.high n).merged (pre ++ [b.low n]) post).address = b.address + n + 64 := by
  simp [Block.merged]

/-- The wilderness moves to the upper part of a block that was the last. -/
theorem Merged.cut_wilderness (merged : Merged u (pre ++ [b.low n]) (b.high n) post t new)
    (below : b.address + n + 64 < t.brk)
    (exact : u.globals.blockList.wilderness = lastAddress (pre ++ b :: post)) :
    (if b.address = t.globals.blockList.wilderness then b.address + n + 64
      else t.globals.blockList.wilderness) = lastAddress new := by
  cases post with
  | nil =>
    obtain ⟨isNew, kept⟩ := merged.alone (by simp) rfl
    have here : t.globals.blockList.wilderness = b.address := by
      rw [kept, exact, lastAddress_append_cons, lastAddress_singleton]
    simp [here, isNew]
  | cons m post =>
    have kept := merged.wilderness (by rw [exact]; simp)
    have differs : b.address ≠ t.globals.blockList.wilderness := by
      intro here
      have finish := lastAddress_finish merged.tiled.tiles merged.low_listed.2
        (by rw [← kept, ← here]; rfl)
      simp only [Block.low_address, Block.low_size] at finish
      omega
    exact (if_neg differs).trans kept

theorem Merged.cut_shown (merged : Merged u (pre ++ [b.low n]) (b.high n) post t new)
    (shown : Shown (pre ++ b :: post)) : Shown new := by
  refine merged.fuses.shown fun c member => ?_
  simp only [List.append_assoc, List.cons_append, List.nil_append, List.mem_append,
    List.mem_cons] at member
  rcases member with before | rfl | rfl | after
  · exact shown c (by simp [before])
  · simp
  · exact fun _ => rfl
  · exact shown c (by simp [after])

/-- The records of the parts are those of the block and of the blocks there are now. -/
theorem Merged.cut_records (merged : Merged u (pre ++ [b.low n]) (b.high n) post t new)
    (room : n + 192 ≤ b.size) :
    records (pre ++ b.low n :: b.high n :: post) ⊆ records (pre ++ b :: post) ∪ records new := by
  rintro x ⟨c, member, here⟩
  simp only [List.mem_append, List.mem_cons] at member
  rcases member with before | rfl | rfl | after
  · exact Or.inl ⟨c, by simp [before], here⟩
  · exact Or.inr ⟨b.low n, merged.low_listed.2, here⟩
  · rcases here with header | footer
    · exact Or.inr ⟨_, merged.block, Or.inl (by rwa [Merged.high_address])⟩
    · refine Or.inl ⟨b, by simp, Or.inr ?_⟩
      simp only [Block.high_address, Block.high_size] at footer
      omega
  · exact Or.inl ⟨c, by simp [after], here⟩

/-- The blocks beside the one that was cut keep their sizes. -/
theorem Merged.cut_sizes (merged : Merged u (pre ++ [b.low n]) (b.high n) post t new)
    (tiled : Tiled s (pre ++ b :: post)) (room : n + 192 ≤ b.size) :
    ∀ c ∈ pre ++ post, size t.bytes c.address = c.size := by
  intro c member
  refine (merged.sizes c ?_).resolve_left fun same => ?_
  · rcases List.mem_append.mp member with before | after <;> simp [*]
  · rw [Merged.high_address] at same
    rcases List.mem_append.mp member with before | after
    · have := tiled.place.1.within before
      rw [c.extent_eq] at this
      omega
    · have := tiled.place.2.2.within after
      rw [c.extent_eq] at this
      omega

/-- `splitBlock` when the upper part is smaller than the threshold. -/
theorem splitBlock_returns (tiled : Tiled s (pre ++ b :: post)) (room : n + 192 ≤ b.size)
    (small : b.size - n - 64 < MMAP_THRESHOLD) (shown : Shown pre) :
    ∃ t new, Returns (splitBlock n b.address) s () t ∧ Divided s pre b post n t new := by
  have bound := tiled.within (b := b) (by simp)
  obtain ⟨bytes, head, delta, u, t, new, isCounted, merged, run, frame⟩ :=
    splitBlock_frees tiled room small shown
  have rest : t = rebuilt u t.bytes t.globals.blockList t.globals.statistics := merged.rest
  have heapStart : t.heapStart = s.heapStart := by rw [rest, isCounted]; rfl
  have brk : t.brk = s.brk := by rw [rest, isCounted]; rfl
  have maps : t.maps = s.maps := by rw [rest, isCounted]; rfl
  have below : b.address + n + 64 < t.brk := by
    rw [brk]
    omega
  have inside : Set.EqOn t.bytes s.bytes
      (records (pre ++ b :: post) ∪ records (pre ++ b.low n :: b.high n :: post))ᶜ := by
    have after := merged.frame
    rw [isCounted, List.append_assoc] at after
    exact (after.mono (Set.compl_subset_compl.mpr Set.subset_union_right)).trans frame
  have sameWilderness : u.globals.blockList.wilderness = s.globals.blockList.wilderness := by
    rw [isCounted]
    rfl
  refine ⟨withWilderness t (if b.address = t.globals.blockList.wilderness then b.address + n + 64
      else t.globals.blockList.wilderness), new, run, ⟨⟨⟨merged.tiled.congr rfl, ?_, ?_, heapStart, maps, ?_, ?_, ?_⟩,
      merged.low_listed.1, ?_, ?_, inside⟩, ?_, ?_, ?_⟩⟩
  · exact fun exact => merged.cut_wilderness below (sameWilderness.trans exact)
  · exact merged.cut_shown
  · exact brk ▸ Nat.le_refl _
  · intro apart
    simpa only [MapsApart, withWilderness, heapStart, brk, maps] using apart
  · apply inside.mono (Set.compl_subset_compl.mpr (Set.union_subset ?_ ?_))
    · exact fun x here => Or.inl (Or.inl here)
    · exact fun x here => Or.inl (merged.cut_records room here)
  · intro even aligned
    apply merged.fuses.aligned
    simp only [aligned_append, aligned_cons, aligned_nil, Block.low_size, Block.freed_size,
      Block.high_size] at aligned ⊢
    exact ⟨⟨aligned.1, even, trivial⟩, by omega, aligned.2.2⟩
  · exact merged.cut_sizes tiled room
  · intro exact
    change t.globals.statistics = tally new t.maps
    rw [maps]
    apply merged.counters s.maps
    rw [isCounted]
    simp only [withStatistics, exact]
    refine tally_update ?_ ?_ ?_ ?_ ?_ <;> simp <;> omega
  · intro coalescedPre coalescedPost
    exact merged.coalesced (coalesced_iff.mpr
      ⟨coalescedPre, ⟨by simp, by simp⟩, rfl, Or.inr rfl, Or.inl rfl⟩) coalescedPost
  · change t.strayUnmaps = s.strayUnmaps
    rw [rest, isCounted]
    rfl

/-- A block of the heap that `sfree` takes for a mapping stays where it is,
marked in its header only. -/
theorem sfree_stray_evolves (tiled : Tiled s (pre ++ b :: post)) (live : b.free = false)
    (large : MMAP_THRESHOLD ≤ b.size) (outside : ∀ region ∈ s.maps, region.1 ≠ b.address) :
    ∃ t, Returns (sfree (b.address + 32)) s () t ∧
      Evolves s (pre ++ b :: post) t (pre ++ { b with free := true } :: post) ∧
      t.strayUnmaps = (b.address, b.size + 32) :: s.strayUnmaps ∧ t.brk = s.brk ∧
      t.globals.blockList = s.globals.blockList ∧
      Set.EqOn t.bytes s.bytes (records (pre ++ b :: post))ᶜ := by
  obtain ⟨statistics, run⟩ := sfree_stray tiled live large outside
  have frame : Set.EqOn (setFree s.bytes b.address true) s.bytes (records (pre ++ b :: post))ᶜ := by
    refine setFree_outside.mono (Set.compl_subset_compl.mpr fun x inside => ⟨b, by simp, ?_⟩)
    simp only [mem_cells] at inside
    omega
  refine ⟨_, run, ⟨(tiled.markHeader true).congr rfl, fun exact => ?_, fun shown c member => ?_, rfl,
    rfl, Nat.le_refl _, id, ?_⟩, rfl, rfl, rfl, frame⟩
  · exact exact.trans (lastAddress_mark (b := b) (c := { b with free := true }) rfl).symm
  · rcases List.mem_append.mp member with before | inTail
    · exact shown c (by simp [before])
    rcases List.mem_cons.mp inTail with rfl | after
    · exact fun _ => rfl
    · exact shown c (by simp [after])
  · exact frame.mono (Set.compl_subset_compl.mpr fun x inside => Or.inl (Or.inl inside))

/-- `splitBlock` when the upper part is taken for a mapping. -/
theorem splitBlock_stray (tiled : Tiled s (pre ++ b :: post)) (room : n + 192 ≤ b.size)
    (large : MMAP_THRESHOLD ≤ b.size - n - 64)
    (outside : ∀ region ∈ s.maps, region.1 ≠ b.address + n + 64) :
    ∃ t new, Returns (splitBlock n b.address) s () t ∧ Cut s pre b post n t new := by
  obtain ⟨bytes, head, delta, run, cut, frame⟩ := splitBlock_carve tiled (n := n) (by omega)
  obtain ⟨u, isCounted⟩ : ∃ u, u = withStatistics (relink s bytes head delta)
      (s.globals.statistics.update 1 (-1) (-(2 * 32))
        (-(2 * 32 + n + (b.size - n - 64 : Nat))) (2 * 32)) := ⟨_, rfl⟩
  have counted : Tiled u ((pre ++ [b.low n]) ++ b.high n :: post) := by
    rw [isCounted, List.append_assoc]
    exact cut.congr rfl
  obtain ⟨t, free, evolves, _, brk, list, change⟩ :=
    sfree_stray_evolves counted rfl large (by rw [isCounted]; exact outside)
  have same : u.globals.blockList.wilderness = s.globals.blockList.wilderness := by
    rw [isCounted]
    rfl
  have parts : records ((pre ++ [b.low n]) ++ { b.high n with free := true } :: post) =
      records (pre ++ b.low n :: b.high n :: post) := by
    have marked : records ((pre ++ [b.low n]) ++ { b.high n with free := true } :: post) =
        records ((pre ++ [b.low n]) ++ b.high n :: post) := records_mark rfl rfl
    rw [marked, List.append_assoc]
    rfl
  have inside : Set.EqOn t.bytes s.bytes
      (records (pre ++ b :: post) ∪ records (pre ++ b.low n :: b.high n :: post))ᶜ := by
    have after := change
    rw [isCounted, List.append_assoc] at after
    exact (after.mono (Set.compl_subset_compl.mpr Set.subset_union_right)).trans frame
  refine ⟨withWilderness t (if b.address = t.globals.blockList.wilderness then b.address + n + 64
      else t.globals.blockList.wilderness), _,
    run (Returns.bind updateStatistics_returns (Returns.bind (isCounted ▸ free)
      moveWilderness_returns)), ⟨evolves.tiled.congr rfl, ?_, ?_, ?_, ?_, ?_, ?_, ?_⟩,
    by simp, ?_, ?_, inside⟩
  · intro exact
    rw [← list] at same
    change (if b.address = t.globals.blockList.wilderness then b.address + n + 64
      else t.globals.blockList.wilderness) = _
    rw [same, exact]
    cases post with
    | nil => simp
    | cons m post =>
      obtain ⟨_, _, tail⟩ := tiles_append.mp tiled.tiles
      have differs : b.address ≠ lastAddress (pre ++ b :: m :: post) := by
        rw [lastAddress_append_cons]
        intro here
        exact absurd ((lastAddress_eq tail).mp here.symm) (by simp)
      rw [if_neg differs]
      simp
  · intro shown c member
    simp only [List.append_assoc, List.cons_append, List.nil_append, List.mem_append,
      List.mem_cons] at member
    rcases member with before | rfl | rfl | after
    · exact shown c (by simp [before])
    · simp
    · simp
    · exact shown c (by simp [after])
  · exact evolves.heapStart.trans (by rw [isCounted]; rfl)
  · exact evolves.maps.trans (by rw [isCounted]; rfl)
  · refine Nat.le_of_eq (brk.trans ?_).symm
    rw [isCounted]
    rfl
  · intro apart
    exact evolves.apart (by rw [isCounted]; exact apart)
  · rw [parts]
    exact inside.mono (Set.compl_subset_compl.mpr Set.subset_union_left)
  · intro even aligned
    simp only [aligned_append, aligned_cons, aligned_nil, Block.low_size, Block.high_size]
      at aligned ⊢
    exact ⟨⟨aligned.1, even, trivial⟩, by omega, aligned.2.2⟩
  · intro c member
    refine (evolves.tiled.stored c ?_).size
    rcases List.mem_append.mp member with before | after <;> simp [*]

/-- `splitBlock`, whatever `sfree` takes the upper part for. -/
theorem splitBlock_outcome (tiled : Tiled s (pre ++ b :: post)) (room : n + 192 ≤ b.size)
    (shown : Shown pre) (apart : MapsApart s) :
    ∃ t new, Returns (splitBlock n b.address) s () t ∧ Cut s pre b post n t new ∧
      (b.size - n - 64 < MMAP_THRESHOLD → Divided s pre b post n t new) := by
  by_cases small : b.size - n - 64 < MMAP_THRESHOLD
  · obtain ⟨t, new, run, divided⟩ := splitBlock_returns tiled room small shown
    exact ⟨t, new, run, divided.toCut, fun _ => divided⟩
  · have bound := tiled.within (b := b) (by simp)
    have outside : ∀ region ∈ s.maps, region.1 ≠ b.address + n + 64 := by
      intro region member same
      have := apart region member
      omega
    obtain ⟨t, new, run, cut⟩ := splitBlock_stray tiled room (Nat.not_lt.mp small) outside
    exact ⟨t, new, run, cut, fun fits => absurd fits small⟩

end OperatingSystems.Malloc3
