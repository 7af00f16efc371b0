import OperatingSystems.Malloc3.InPlace

/-!
# Growing over the break

Four branches of `tryMergeRealloc` ask the system for more heap, for the block
itself or for a run of blocks that ends with it. The system may refuse, and the
assertions of three of them fail in a heap with a block whose size is no
multiple of 8. Otherwise the block grows to exactly the size asked for.
-/

namespace OperatingSystems.Malloc3

open Bytes Process MallocMetadata Tiling

variable {s t u v : State} {pre mid old new blocks : List Block} {b c p next : Block}
  {a e n added : Nat}

/-- How an attempt to grow the block `b` in place ends, which asks for `added`
bytes of heap: refused, with an assertion that fails, or with a larger block. -/
inductive Attempt (s : State) (old : List Block) (b : Block) (program : Alloc Nat)
    (added size : Nat) (stale fails : Prop) : Prop
  | refused (positive : 0 < added) (denied : ¬s.Grants added) (statistics : Statistics)
      (run : Returns program s 0 (withStatistics (answered s) statistics))
  | failed (odd : ¬Aligned old) (uneven : fails) (run : Faults program s .assertion)
  | grown (granted : added = 0 ∨ s.Grants added) (holds : ¬fails) (t : State) (new : List Block) (c : Block)
      (run : Returns program s (c.address + 32) t) (enlarged : Enlarged s old b t new c)
      (sized : c.size = size)
      (last : ¬stale → s.globals.blockList.wilderness = lastAddress old →
        t.globals.blockList.wilderness = lastAddress new)

/-- The state in which the heap is larger by `added` bytes. -/
structure Extended (s : State) (added : Nat) (v : State) : Prop where
  brk : v.brk = s.brk + added
  heapStart : v.heapStart = s.heapStart
  maps : v.maps = s.maps
  strays : v.strayUnmaps = s.strayUnmaps
  globals : v.globals = s.globals
  apart : MapsApart v
  small : v.brk < 2 ^ 64 - 1
  fresh : Set.EqOn v.bytes s.bytes (Set.Ico s.brk (s.brk + added))ᶜ

/-- `sbrk` over a tiled heap; an increment of zero is never refused. -/
theorem Tiled.sbrk_outcome (tiled : Tiled s blocks) (apart : MapsApart s) (added : Nat)
    (small : added < 2 ^ 63) :
    (0 < added ∧ ¬s.Grants added ∧ Returns (sbrk added) s mapFailed (answered s)) ∨
      (added = 0 ∨ s.Grants added) ∧ s.brk ≠ mapFailed ∧
        ∃ v, Returns (sbrk added) s s.brk v ∧ Extended s added v := by
  have top := tiled.small
  rcases sbrk_extends s small top apart with refused |
    ⟨granted, bytes, replies, run, fresh, high, clear⟩
  · exact Or.inl refused
  · have differs : s.brk ≠ mapFailed := by
      unfold mapFailed
      omega
    exact Or.inr ⟨granted, differs, _, run, ⟨rfl, rfl, rfl, rfl, rfl, clear, high, fresh⟩⟩

/-- The last blocks of the heap are opened up to the new break. -/
theorem Extended.opened (extended : Extended s added v) (tiled : Tiled s (pre ++ mid))
    (below : Tile s.heapStart pre a) (middle : Tile a mid s.brk) :
    Opened v pre [] a (s.brk + added) (mid.map Block.address) [] := by
  have whole : Tiled s (pre ++ mid ++ []) := by simpa using tiled
  have grown := (whole.opened below middle rfl).grow (s.brk + added) v.replies (by omega)
    (extended.brk ▸ extended.small) extended.fresh
  apply grown.congr
  simp only [footing, extended.brk, extended.heapStart, extended.maps, extended.globals]

theorem Extended.prepared (extended : Extended s added v) (low : a ≤ s.brk) :
    Prepared s a (s.brk + added) s.globals.statistics v := by
  refine ⟨extended.heapStart, extended.maps, extended.strays, by rw [extended.brk]; omega,
    fun _ => extended.apart, by rw [extended.globals], extended.fresh.mono ?_⟩
  refine Set.compl_subset_compl.mpr fun x inside => ?_
  simp only [Set.mem_Ico, mem_cells] at inside ⊢
  omega

/-- Below the old break nothing has changed. -/
theorem Extended.below (extended : Extended s added v) {x : Nat} (low : x < s.brk) :
    v.bytes x = s.bytes x :=
  extended.fresh fun inside => absurd inside.1 (Nat.not_le.mpr low)

/-- The counters are updated once the heap is extended. -/
theorem Extended.counted (extended : Extended s added v) (tiled : Tiled s (pre ++ mid))
    (below : Tile s.heapStart pre a) (middle : Tile a mid s.brk) (low : a ≤ s.brk)
    (allocatedBlocks freeBlocks allocatedBytes freeBytes metadataBytes : Int) :
    ∃ u, u.bytes = v.bytes ∧
      Returns (updateStatistics allocatedBlocks freeBlocks allocatedBytes freeBytes metadataBytes) v ()
        u ∧
      Opened u pre [] a (s.brk + added) (mid.map Block.address) [] ∧
      Prepared s a (s.brk + added)
        (s.globals.statistics.update allocatedBlocks freeBlocks allocatedBytes freeBytes metadataBytes)
        u := by
  refine ⟨withStatistics v (s.globals.statistics.update allocatedBlocks freeBlocks allocatedBytes
    freeBytes metadataBytes), rfl, ?_, ?_, ?_⟩
  · rw [← extended.globals]
    exact updateStatistics_returns
  · exact (extended.opened tiled below middle).congr rfl
  · exact (extended.prepared low).count _

/-- A block keeps its records when the heap is extended. -/
theorem Extended.stored (extended : Extended s added v) (tiled : Tiled s blocks)
    (member : b ∈ blocks) : Stored v.bytes b := by
  have place := tiled.within member
  refine (tiled.stored b member).frame extended.fresh ?_ ?_ <;>
  · intro x _ high inside
    have := inside.1
    omega

/-- The break of an aligned heap is a multiple of 8. -/
theorem Tiled.aligned_break (tiled : Tiled s blocks) (aligned : Aligned blocks) : s.brk % 8 = 0 :=
  (aligned.length tiled.tiles).trans tiled.aligned

/-- Counting ahead is part of the preparation. -/
theorem Prepared.counted {ahead statistics : Statistics} {w : State}
    (prepared : Prepared (withStatistics s ahead) a e statistics w) : Prepared s a e statistics w :=
  ⟨prepared.heapStart, prepared.maps, prepared.strays, prepared.grows, prepared.apart,
    prepared.statistics, prepared.frame⟩

/-- What case c reads, and the bytes it asks for. -/
theorem growLast_reads (tiled : Tiled s (pre ++ [b])) (larger : b.size < n) (request : n < 2 ^ 63)
    (isAdded : added = n - b.size) :
    growLast b.address n s = (do
      assert (0 < added)
      assert (added % 8 = 0)
      updateStatistics 0 0 added 0 0
      let result ← sbrk added
      if result = mapFailed then pure 0
      else do
        let brk ← sbrk 0
        assert (brk % 8 = 0)
        let currentSize ← readSize b.address
        writeSize b.address (currentSize + added)
        writeFree b.address false
        let currentSize ← readSize b.address
        assert (n ≤ currentSize)
        removeMetadata b.address
        addMetadata b.address
        copyFooter b.address
        pure (b.address + 32) : Alloc Nat) s := by
  have needed : wrapSub n b.size = added := (wrapSub_eq (by omega) (by omega)).trans isAdded.symm
  unfold growLast
  refine (tiled.reads_size (b := b) (by simp)).step.trans ?_
  rw [needed]

/-- Case c: the last block grows to the size asked for. The counters are updated
before the system is asked. -/
theorem growLast_grows (tiled : Tiled s (pre ++ [b])) (live : b.free = false)
    (apart : MapsApart s) (larger : b.size < n) (request : n < 2 ^ 63) (even : n % 8 = 0)
    {stale : Prop} :
    Attempt s (pre ++ [b]) b (growLast b.address n) (n - b.size) n stale
      ((n - b.size) % 8 ≠ 0 ∨ (s.brk + (n - b.size)) % 8 ≠ 0) := by
  obtain ⟨below, middle, above⟩ := tiled.place
  have isEnd : b.address + b.size + 64 = s.brk := above
  obtain ⟨added, isAdded⟩ : ∃ added, added = n - b.size := ⟨_, rfl⟩
  obtain ⟨u, isCounted⟩ : ∃ u, u = withStatistics s (s.globals.statistics.update 0 0 added 0 0) :=
    ⟨_, rfl⟩
  have counted : Tiled u (pre ++ [b]) := by
    rw [isCounted]
    exact tiled.congr rfl
  rw [← isAdded]
  have reads := growLast_reads tiled larger request isAdded
  by_cases whole : added % 8 = 0
  swap
  · refine .failed (fun aligned => ?_) (Or.inl whole) ?_
    · have := (aligned_append.mp aligned).2 b (by simp)
      omega
    · exact reads.trans (Returns.bind_faults (assert_returns (by omega))
        (Faults.bind (assert_faults whole)))
  have counts : Returns (updateStatistics 0 0 added 0 0) s () u := by
    rw [isCounted]
    exact updateStatistics_returns
  have begin := reads.trans ((assert_returns (by omega)).step.trans
    ((assert_returns whole).step.trans counts.step))
  have same : b.size + added = n := by omega
  rcases counted.sbrk_outcome (by rw [isCounted]; exact apart) added (by omega) with
    ⟨positive, denied, refused⟩ | ⟨granted, differs, v, granting, extended⟩
  · have run : Returns (growLast b.address n) s 0 (answered u) :=
      begin.trans (Returns.bind refused (Returns.ifPos rfl Returns.pure))
    rw [isCounted] at denied run
    exact .refused positive denied _ run
  have sameBrk : u.brk = s.brk := by rw [isCounted]; rfl
  have sameStart : u.heapStart = s.heapStart := by rw [isCounted]; rfl
  have opened : Opened v pre [] b.address (u.brk + added) [b.address] [] :=
    extended.opened counted (sameStart ▸ below) (sameBrk ▸ isEnd ▸ middle)
  have prepared : Prepared s b.address (u.brk + added) (s.globals.statistics.update 0 0 added 0 0)
      v := by
    have after := extended.prepared (a := b.address) (by omega)
    rw [isCounted] at after ⊢
    exact after.counted
  have headerNow : v.Mapped b.address 32 := opened.mapped (Nat.le_refl _) (by omega)
  obtain ⟨sized, flag, written⟩ := headed_fields v.bytes b.address n (by omega)
  obtain ⟨w, isHeaded⟩ : ∃ w, w = v.withBytes (headed v.bytes b.address n) := ⟨_, rfl⟩
  have ready : Opened w pre [] b.address (u.brk + added) [b.address] [] := by
    rw [isHeaded]
    exact opened.head (by simp) (by omega) (by omega)
  have sizeLast : size w.bytes b.address = n := by rw [isHeaded]; exact sized
  by_cases alignedBreak : v.brk % 8 = 0
  swap
  · refine .failed (fun aligned => alignedBreak ?_) (Or.inr ?_) ?_
    · have := tiled.aligned_break aligned
      have := extended.brk
      omega
    · rw [extended.brk] at alignedBreak
      rwa [← sameBrk]
    · refine begin.trans (Returns.bind_faults granting ?_)
      refine (congrFun (if_neg differs) _).trans ?_
      exact Returns.bind_faults sbrk_zero (Faults.bind (assert_faults alignedBreak))
  obtain ⟨t, run, enlarged, last⟩ := Prepared.settle
    (isHeaded ▸ prepared.head (by omega) (by omega)) ready (by simp)
    (sizeLast.trans (by omega)) (by rw [isHeaded]; exact flag)
    (show inUse [b] = [b] by simp [live]) (by omega) (fun m member => by simp_all)
    (fun i short => by
      rw [isHeaded]
      refine (written ?_).trans ((extended.below (by omega)).trans (by rw [isCounted]; rfl))
      simp only [Set.mem_compl_iff, mem_cells]
      omega) fun exact => by
      simp only [List.append_nil] at exact
      rw [exact]
      refine tally_update ?_ ?_ ?_ ?_ ?_ <;> simp [live, filling]
      omega
  rw [List.append_nil] at enlarged
  have holds : ¬(added % 8 ≠ 0 ∨ (s.brk + added) % 8 ≠ 0) := by
    rw [extended.brk, sameBrk] at alignedBreak
    omega
  refine .grown (by rw [isCounted] at granted; exact granted) holds t _ _
    (begin.trans (Returns.bind granting (Returns.ifNeg differs ?_))) enlarged
    (by simp only [filling]; omega) fun _ exact => ?_
  · refine Returns.bind sbrk_zero (Returns.bind (assert_returns alignedBreak) ?_)
    refine Returns.bind ((readSize_returns headerNow).to (extended.stored counted (b := b)
      (by simp)).size) ?_
    rw [same]
    refine Returns.bind (writeSize_returns headerNow) (Returns.bind (t := w) (x := ()) ?_ ?_)
    · rw [isHeaded]
      exact writeFree_returns (s := v.withBytes _) headerNow
    apply Returns.bind ((readSize_returns (ready.mapped (Nat.le_refl _) (by omega))).to sizeLast)
    exact Returns.bind (assert_returns (Nat.le_refl n)) (run Returns.pure)
  · have unmoved : w.globals.blockList.wilderness = s.globals.blockList.wilderness := by
      rw [isHeaded]
      simp only [Machine.withBytes, extended.globals, isCounted, withStatistics]
    rw [last, unmoved, exact]
    simp [filling]

/-- A new size in a stale header keeps the interval open. -/
theorem Opened.resize {order : List Nat} {total m : Nat} (opened : Opened s pre [] a e order [])
    (member : m ∈ order) :
    Opened (s.withBytes (setSize s.bytes m total)) pre [] a e order [] := by
  obtain ⟨nodes, perm, linked, _⟩ := opened.listed
  have listed : ∀ {x}, x ∈ order → x ∈ nodes := fun {x} here => perm.mem_iff.mpr (by simp [here])
  have place := opened.within m (by simp [member])
  refine opened.write setSize_outside (fun x inside => ?_) (fun k known x inside => ?_)
    (fun k known => absurd known List.not_mem_nil)
  · simp only [mem_cells] at inside
    omega
  · simp only [mem_cells] at inside
    rcases linked.beside (listed member) k (listed (by simpa using known)) with rfl | apart
    · omega
    · unfold Apart at apart
      omega

/-- Writing one is part of the preparation. -/
theorem Prepared.resize {statistics : Statistics} {w : State} {m total : Nat}
    (prepared : Prepared s a e statistics w) (low : a ≤ m) (high : m + 8 ≤ e) :
    Prepared s a e statistics (w.withBytes (setSize w.bytes m total)) := by
  refine prepared.write setSize_outside fun x inside => ?_
  simp only [mem_cells] at inside
  omega

/-- The state after a new size was written into a stale header. -/
theorem Opened.resized {order : List Nat} {statistics : Statistics} {u : State} (opened : Opened u pre [] a e order [])
    (prepared : Prepared s a e statistics u) (m total : Nat) (member : m ∈ order) (low : a ≤ m) (high : m + 8 ≤ e)
    (small : total < 2 ^ 64) :
    ∃ w, w = u.withBytes (setSize u.bytes m total) ∧ Opened w pre [] a e order [] ∧
      Prepared s a e statistics w ∧ Set.EqOn w.bytes u.bytes (cells m 8)ᶜ ∧ size w.bytes m = total :=
  ⟨_, rfl, opened.resize member, prepared.resize low high, setSize_outside, size_setSize small⟩

/-- The two branches of case f check what they ask for, ask, and go on with the extended
heap. -/
theorem Attempt.of_asking {program rest : Alloc Nat} {size : Nat} {stale : Prop}
    (tiled : Tiled s blocks) (apart : MapsApart s) (positive : 0 < added) (small : added < 2 ^ 63)
    (even : Aligned blocks → added % 8 = 0)
    (asks : program s = (do
      assert (0 < added)
      assert (added % 8 = 0)
      let result ← sbrk added
      if result = mapFailed then pure 0 else rest : Alloc Nat) s)
    (grows : ∀ v, Extended s added v → (added = 0 ∨ s.Grants added) → added % 8 = 0 →
      (∀ {x t}, Returns rest v x t → Returns program s x t) →
      Attempt s blocks b program added size stale (added % 8 ≠ 0)) :
    Attempt s blocks b program added size stale (added % 8 ≠ 0) := by
  by_cases whole : added % 8 = 0
  · have begin := asks.trans ((assert_returns positive).step.trans (assert_returns whole).step)
    rcases tiled.sbrk_outcome apart added small with
      ⟨_, denied, refused⟩ | ⟨granted, differs, v, granting, extended⟩
    · exact .refused positive denied s.globals.statistics
        (begin.trans (Returns.bind refused (Returns.ifPos rfl Returns.pure)))
    · exact grows v extended granted whole fun run =>
        begin.trans (Returns.bind granting (Returns.ifNeg differs run))
  · refine .failed (fun aligned => whole (even aligned)) whole ?_
    exact asks.trans (Returns.bind_faults (assert_returns positive)
      (Faults.bind (assert_faults whole)))

/-- What case f without a free block before reads, and the bytes it asks for. -/
theorem growNext_reads (tiled : Tiled s (pre ++ [b, next])) (larger : b.size + next.size + 64 < n)
    (request : n < 2 ^ 63) (isAdded : added = n - (b.size + next.size + 64)) :
    growNext b.address next.address n s = (do
      assert (0 < added)
      assert (added % 8 = 0)
      let result ← sbrk added
      if result = mapFailed then pure 0
      else do
        updateStatistics (-1) (-1) (added + 2 * 32) (-next.size) (-(2 * 32))
        writeSize next.address (next.size + added)
        let nextSize ← readSize next.address
        writeSize b.address (b.size + (nextSize + 2 * 32))
        removeMetadata b.address
        removeMetadata next.address
        addMetadata b.address
        copyFooter b.address
        setWilderness b.address
        pure (b.address + 32) : Alloc Nat) s := by
  have needed : wrapSub n (wrap (b.size + next.size + 2 * 32)) = added := by
    rw [wrap_eq (by omega), wrapSub_eq (by omega) (by omega), isAdded]
  unfold growNext
  refine (tiled.reads_size (b := b) (by simp)).step.trans ?_
  refine (tiled.reads_size (b := next) (by simp)).step.trans ?_
  simp only [SOM]
  rw [needed]
  rfl

/-- Case f without a free block before: the wilderness behind the block is
extended, then absorbed. -/
theorem growNext_grows (tiled : Tiled s (pre ++ [b, next])) (live : b.free = false)
    (nextFree : next.free = true) (apart : MapsApart s) (larger : b.size + next.size + 64 < n)
    (request : n < 2 ^ 63) (even : n % 8 = 0) {stale : Prop} :
    Attempt s (pre ++ [b, next]) b (growNext b.address next.address n)
      (n - (b.size + next.size + 64)) n stale ((n - (b.size + next.size + 64)) % 8 ≠ 0) := by
  have beside : next.address = b.address + b.size + 64 := tiled.next
  have middle : Tile b.address [b, next] (next.address + next.size + 64) := by
    simp [Block.extent_eq]
    omega
  obtain ⟨below, above⟩ := (show Tiled s (pre ++ [b, next] ++ []) by simpa using tiled).span middle
    (by simp)
  have isEnd : next.address + next.size + 64 = s.brk := above
  obtain ⟨added, isAdded⟩ : ∃ added, added = n - (b.size + next.size + 64) := ⟨_, rfl⟩
  rw [← isAdded]
  have evenAdded : Aligned (pre ++ [b, next]) → added % 8 = 0 := by
    intro aligned
    have sizes := (aligned_append.mp aligned).2
    simp only [aligned_cons] at sizes
    omega
  refine .of_asking tiled apart (by omega) (by omega) evenAdded
    (growNext_reads tiled larger request isAdded) fun v extended granted whole goesOn => ?_
  obtain ⟨statistics, isStatistics⟩ : ∃ statistics, statistics =
    s.globals.statistics.update (-1) (-1) (added + 2 * 32) (-next.size) (-(2 * 32)) := ⟨_, rfl⟩
  obtain ⟨u, sameBytes, counts, opened, prepared⟩ := extended.counted tiled below (isEnd ▸ middle)
    (by omega) (-1) (-1) (added + 2 * 32) (-next.size) (-(2 * 32))
  rw [← isStatistics] at prepared
  have total : b.size + (next.size + added + 2 * 32) = n := by omega
  obtain ⟨w, isNext, openedNext, preparedNext, outsideHeader, sizeNext⟩ :=
    opened.resized prepared next.address (next.size + added) (by simp) (by omega) (by omega) (by omega)
  have outsideNext : Set.EqOn w.bytes v.bytes (cells next.address 8)ᶜ := sameBytes ▸ outsideHeader
  obtain ⟨x, isCurrent, ready, preparedBoth, outside, sizeCurrent⟩ :=
    openedNext.resized preparedNext b.address n (by simp) (by omega) (by omega) (by omega)
  have flag : isFree x.bytes b.address = false := by
    refine (isFree_frame outside fun x low high => ?_).trans
      ((isFree_frame outsideNext fun x low high => ?_).trans
        ((extended.stored tiled (b := b) (by simp)).free.trans live)) <;>
    · simp only [mem_cells]
      omega
  have sized : size x.bytes b.address = s.brk + added - b.address - 64 := sizeCurrent.trans (by omega)
  obtain ⟨t, run, enlarged, last⟩ := preparedBoth.settle ready (by simp) sized flag
    (show inUse [b, next] = [b] by simp [live, nextFree]) (by omega)
    (fun m member => by
      simp only [List.map_cons, List.map_nil, List.mem_cons, List.not_mem_nil, or_false] at member
      omega)
    (fun i short => by
      refine (outside ?_).trans ((outsideNext ?_).trans (extended.below (by omega))) <;>
      · simp only [Set.mem_compl_iff, mem_cells]
        omega) fun exact => by
      simp only [List.append_nil] at exact
      rw [isStatistics, exact]
      refine tally_update ?_ ?_ ?_ ?_ ?_ <;> simp [live, nextFree, filling] <;> omega
  rw [List.append_nil] at enlarged
  refine .grown granted (not_not.mpr whole) (withWilderness t b.address) _ _ (goesOn ?_)
    (enlarged.withWilderness b.address) (by simp only [filling]; omega) fun _ _ => ?_
  · refine Returns.bind counts (Returns.bind
      (writeSize_returns (opened.mapped (by omega) (by omega))) ?_)
    rw [← isNext]
    apply Returns.bind ((readSize_returns (openedNext.mapped (by omega) (by omega))).to sizeNext)
    rw [total]
    apply Returns.bind (writeSize_returns (openedNext.mapped (Nat.le_refl _) (by omega)))
    rw [← isCurrent]
    exact run (Returns.bind setWilderness_returns Returns.pure)
  · simp [filling, withWilderness]

/-- What case f with a free block before reads, and the bytes it asks for. -/
theorem growBoth_reads (tiled : Tiled s (pre ++ [p, b, next]))
    (larger : p.size + b.size + next.size + 128 < n) (request : n < 2 ^ 63)
    (isAdded : added = n - (p.size + b.size + next.size + 128)) :
    growBoth b.address (b.address - 32) next.address n s = (do
      assert (0 < added)
      assert (added % 8 = 0)
      let result ← sbrk added
      if result = mapFailed then pure 0
      else do
        updateStatistics (-2) (-2) (added + 4 * 32) (-(p.size + next.size)) (-(4 * 32))
        writeSize p.address (p.size + (b.size + next.size + added + 4 * 32))
        writeFree p.address false
        setWilderness p.address
        joinThree b.address p.address next.address : Alloc Nat) s := by
  have split : Tiled s (pre ++ [p] ++ b :: [next]) := by simpa using tiled
  have needed : wrapSub n (wrap (p.size + b.size + next.size + 4 * 32)) = added := by
    rw [wrap_eq (by omega), wrapSub_eq (by omega) (by omega), isAdded]
  unfold growBoth
  apply split.reads_previous.step.trans
  simp only [SOM, split.back]
  refine (tiled.reads_size (b := p) (by simp)).step.trans ?_
  refine (tiled.reads_size (b := b) (by simp)).step.trans ?_
  refine (tiled.reads_size (b := next) (by simp)).step.trans ?_
  rw [needed]
  rfl

/-- Case f with a free block before: all three become one, extended over the
break. -/
theorem growBoth_grows (tiled : Tiled s (pre ++ [p, b, next])) (live : b.free = false)
    (prevFree : p.free = true) (nextFree : next.free = true) (apart : MapsApart s)
    (larger : p.size + b.size + next.size + 128 < n) (request : n < 2 ^ 63) (even : n % 8 = 0)
    (spared : s.Grants (n - (p.size + b.size + next.size + 128)) → b.size ≤ p.size + 48)
    {stale : Prop} :
    Attempt s (pre ++ [p, b, next]) b (growBoth b.address (b.address - 32) next.address n)
      (n - (p.size + b.size + next.size + 128)) n stale
      ((n - (p.size + b.size + next.size + 128)) % 8 ≠ 0) := by
  have before : p.address + p.size + 64 = b.address :=
    (show Tiled s (pre ++ [p] ++ b :: [next]) by simpa using tiled).previous
  have beside : next.address = b.address + b.size + 64 :=
    (show Tiled s (pre ++ [p] ++ b :: next :: []) by simpa using tiled).next
  have middle : Tile p.address [p, b, next] (next.address + next.size + 64) := by
    simp [Block.extent_eq]
    omega
  obtain ⟨below, above⟩ := (show Tiled s (pre ++ [p, b, next] ++ []) by simpa using tiled).span
    middle (by simp)
  have isEnd : next.address + next.size + 64 = s.brk := above
  obtain ⟨added, isAdded⟩ : ∃ added, added = n - (p.size + b.size + next.size + 128) := ⟨_, rfl⟩
  rw [← isAdded] at spared ⊢
  have evenAdded : Aligned (pre ++ [p, b, next]) → added % 8 = 0 := by
    intro aligned
    have sizes := (aligned_append.mp aligned).2
    simp only [aligned_cons] at sizes
    omega
  refine .of_asking tiled apart (by omega) (by omega) evenAdded
    (growBoth_reads tiled larger request isAdded) fun v extended granted whole goesOn => ?_
  have spared := spared (granted.resolve_left (by omega))
  obtain ⟨statistics, isStatistics⟩ : ∃ statistics, statistics =
    s.globals.statistics.update (-2) (-2) (added + 4 * 32) (-(p.size + next.size)) (-(4 * 32)) :=
      ⟨_, rfl⟩
  obtain ⟨u, sameBytes, counts, opened, prepared⟩ := extended.counted tiled below (isEnd ▸ middle)
    (by omega) (-2) (-2) (added + 4 * 32) (-(p.size + next.size)) (-(4 * 32))
  rw [← isStatistics] at prepared
  have total : p.size + (b.size + next.size + added + 4 * 32) = n := by omega
  obtain ⟨sized, flag, written⟩ := headed_fields u.bytes p.address n (by omega)
  obtain ⟨w, isHeaded⟩ : ∃ w, w = u.withBytes (headed u.bytes p.address n) := ⟨_, rfl⟩
  have headed : Opened w pre [] p.address (s.brk + added)
      [p.address, b.address, next.address] [] := by
    rw [isHeaded]
    exact opened.head (by simp) (by omega) (by omega)
  have outside : Set.EqOn w.bytes v.bytes (cells p.address 9)ᶜ := by
    rw [isHeaded, ← sameBytes]
    exact written
  have preparedHead : Prepared s p.address (s.brk + added) statistics w := by
    rw [isHeaded]
    exact prepared.head (by omega) (by omega)
  obtain ⟨t, run, enlarged, last⟩ := joinThree_returns (preparedHead.point p.address)
    (headed.congr (t := withWilderness w p.address) rfl) before beside (by omega)
    (by rw [isHeaded]; exact sized.trans (by omega)) (by rw [isHeaded]; exact flag)
    ((size_frame outside fun x low high => by simp only [mem_cells]; omega).trans
      (extended.stored tiled (b := b) (by simp)).size) spared
    (show inUse [p, b, next] = [b] by simp [live, prevFree, nextFree])
    (fun i short => (outside (by simp only [Set.mem_compl_iff, mem_cells]; omega)).trans
      (extended.below (by omega))) fun exact => by
      simp only [List.append_nil] at exact
      rw [isStatistics, exact]
      refine tally_update ?_ ?_ ?_ ?_ ?_ <;> simp [live, prevFree, nextFree, filling] <;> omega
  rw [List.append_nil] at enlarged
  refine .grown granted (not_not.mpr whole) t _ _ (goesOn ?_) enlarged (by simp only [filling]; omega) fun _ _ => ?_
  · have header : u.Mapped p.address 32 := opened.mapped (Nat.le_refl _) (by omega)
    apply Returns.bind counts
    rw [total]
    refine Returns.bind (writeSize_returns header) (Returns.bind (t := w) (x := ()) ?_ ?_)
    · rw [isHeaded]
      exact writeFree_returns (s := u.withBytes _) header
    exact Returns.bind setWilderness_returns run
  · rw [last]
    simp [filling, withWilderness]

/-- How `tryMergeRealloc` goes on after case b. -/
def afterPrevious (address prevFooter size : Nat) (rest : Alloc Nat) : Alloc Nat := do
  let merged ← growIntoPrevious address prevFooter size
  match merged with
  | some result => pure result
  | none => rest

/-- The wilderness is no part of where growing starts. -/
theorem Enlarged.repoint {wilderness : Nat}
    (enlarged : Enlarged (Malloc3.withWilderness s wilderness) old b t new c) :
    Enlarged s old b t new c :=
  ⟨enlarged.tiled, enlarged.used, enlarged.shown, enlarged.heapStart, enlarged.maps,
    enlarged.grows, enlarged.apart, enlarged.strays, enlarged.counters, enlarged.coalesced,
    enlarged.aligned, enlarged.carried, enlarged.frame⟩

/-- Case b of a block that is not the last one and fits with the block before. -/
theorem growIntoPrevious_enters {post : List Block} (tiled : Tiled s (pre ++ [p, b] ++ post))
    (inside : s.globals.blockList.wilderness ≠ b.address) (fits : n ≤ b.size + p.size + 64) :
    growIntoPrevious b.address (b.address - 32) n s =
      (absorbPrevious b.address (b.address - 32) >>= fun result => pure (some result)) s := by
  have split : Tiled s (pre ++ [p] ++ b :: post) := by simpa using tiled
  have before : p.address + p.size + 64 = b.address := split.previous
  have place := tiled.within (b := b) (by simp)
  have small := tiled.small
  have readsCurrent := tiled.reads_size (b := b) (by simp)
  have readsPrev := split.reads_previous
  unfold growIntoPrevious
  apply getWilderness_returns.step.trans
  rw [if_neg inside.symm]
  refine Returns.pure.step.trans ((congrFun (if_pos rfl) s).trans ?_)
  refine readsCurrent.step.trans (readsPrev.step.trans (congrFun (if_pos ?_) s))
  simp only [SOM]
  rw [wrap_eq (by omega)]
  exact fits

theorem growIntoPrevious_fits {post : List Block} (tiled : Tiled s (pre ++ [p, b] ++ post))
    (live : b.free = false) (prevFree : p.free = true)
    (inside : s.globals.blockList.wilderness ≠ b.address) (fits : n ≤ b.size + p.size + 64)
    (spared : b.size ≤ p.size + 48) (behind : post ≠ []) {rest : Alloc Nat} {stale fails : Prop}
    (never : ¬fails) :
    Attempt s (pre ++ [p, b] ++ post) b (afterPrevious b.address (b.address - 32) n rest) 0
      (p.size + b.size + 64) stale fails := by
  have before : p.address + p.size + 64 = b.address :=
    (show Tiled s (pre ++ [p] ++ b :: post) by simpa using tiled).previous
  obtain ⟨t, run, enlarged, last⟩ := absorbPrevious_grows tiled live prevFree spared
  refine .grown (Or.inl rfl) never t _ _ ?_ enlarged (by simp only [filling]; omega) fun _ exact => ?_
  · exact Returns.bind (x := some (p.address + 32)) ((growIntoPrevious_enters tiled inside fits).trans
      (Returns.bind run Returns.pure)) Returns.pure
  · rw [last, exact]
    obtain ⟨first, more, rfl⟩ := List.exists_cons_of_ne_nil behind
    simp

/-- Case b of the last block, when no extension is needed. -/
theorem growIntoPrevious_enters_last (tiled : Tiled s (pre ++ [p, b]))
    (isLast : s.globals.blockList.wilderness = b.address) (fits : n < p.size + b.size + 64) :
    growIntoPrevious b.address (b.address - 32) n s =
      (absorbPrevious b.address (b.address - 32) >>= fun result => pure (some result))
        (withWilderness s p.address) := by
  have split : Tiled s (pre ++ [p] ++ b :: []) := by simpa using tiled
  have before : p.address + p.size + 64 = b.address := split.previous
  have pointed : Tiled (withWilderness s p.address) (pre ++ [p] ++ b :: []) := split.congr rfl
  have place := tiled.within (b := b) (by simp)
  have small := tiled.small
  have prepare : Returns (prepareWilderness b.address (b.address - 32) n) s true
      (withWilderness s p.address) := by
    unfold prepareWilderness
    refine Returns.bind (tiled.reads_size (b := b) (by simp)) (Returns.bind split.reads_previous ?_)
    simp only [SOM, split.back]
    refine Returns.ifNeg ?_ (Returns.bind Returns.pure (Returns.ifPos rfl
      (Returns.bind setWilderness_returns Returns.pure)))
    rw [wrap_eq (by omega)]
    omega
  unfold growIntoPrevious
  apply getWilderness_returns.step.trans
  rw [if_pos isLast.symm]
  refine prepare.step.trans ((congrFun (if_pos rfl) _).trans ?_)
  refine (pointed.reads_size (b := b) (by simp)).step.trans ?_
  refine pointed.reads_previous.step.trans (congrFun (if_pos ?_) _)
  simp only [SOM]
  rw [wrap_eq (by omega)]
  omega

theorem growIntoPrevious_last (tiled : Tiled s (pre ++ [p, b])) (live : b.free = false)
    (prevFree : p.free = true) (isLast : s.globals.blockList.wilderness = b.address)
    (fits : n < p.size + b.size + 64) (spared : b.size ≤ p.size + 48) {rest : Alloc Nat}
    {stale fails : Prop} (never : ¬fails) :
    Attempt s (pre ++ [p, b]) b (afterPrevious b.address (b.address - 32) n rest) 0
      (p.size + b.size + 64) stale fails := by
  have before : p.address + p.size + 64 = b.address :=
    (show Tiled s (pre ++ [p] ++ b :: []) by simpa using tiled).previous
  have pointed : Tiled (withWilderness s p.address) (pre ++ [p, b] ++ []) := by
    rw [List.append_nil]
    exact tiled.congr rfl
  obtain ⟨t, run, enlarged, last⟩ := absorbPrevious_grows pointed live prevFree spared
  rw [List.append_nil] at enlarged
  refine .grown (Or.inl rfl) never t _ _ ?_ enlarged.repoint (by simp only [filling]; omega)
    fun _ _ => ?_
  · exact Returns.bind (x := some (p.address + 32))
      ((growIntoPrevious_enters_last tiled isLast fits).trans (Returns.bind run Returns.pure))
      Returns.pure
  · rw [last]
    simp [filling, withWilderness]

/-- The state in which the last block is extended by `added` bytes and about to be
absorbed by the one before it. -/
structure Readied (s : State) (pre : List Block) (p b : Block) (added : Nat) (x : State) : Prop where
  opened : Opened x pre [] p.address (s.brk + added) [b.address, p.address] []
  prepared : Prepared s p.address (s.brk + added) (s.globals.statistics.update 0 0 added 0 0) x
  sizePrev : size x.bytes p.address = p.size
  sizeFooter : size x.bytes (b.address - 32) = p.size
  sizeCurrent : size x.bytes b.address = b.size + added
  kept : ∀ i, i < b.size → x.bytes (b.address + 32 + i) = s.bytes (b.address + 32 + i)
  wilderness : x.globals.blockList.wilderness = p.address

/-- What the extension of the last block starts with. -/
theorem prepareWilderness_extends {r : Bool} (tiled : Tiled s (pre ++ [p, b]))
    (larger : p.size + b.size + 64 ≤ n)
    (run : Returns (do
      let ready ← extendCurrent b.address (b.address - 32) n
      if ready then do
        setWilderness p.address
        pure true
      else pure false) s r t) :
    Returns (prepareWilderness b.address (b.address - 32) n) s r t := by
  have split : Tiled s (pre ++ [p] ++ b :: []) := by simpa using tiled
  have before : p.address + p.size + 64 = b.address := split.previous
  have place := tiled.within (b := b) (by simp)
  have small := tiled.small
  unfold prepareWilderness
  refine Returns.bind (tiled.reads_size (b := b) (by simp)) (Returns.bind split.reads_previous ?_)
  simp only [SOM, split.back]
  refine Returns.ifPos ?_ run
  rw [wrap_eq (by omega)]
  omega

/-- The bytes that `extendCurrent` asks for. -/
theorem extendCurrent_asks {r : Bool} (tiled : Tiled s (pre ++ [p, b]))
    (larger : p.size + b.size + 64 ≤ n) (request : n < 2 ^ 63)
    (isAdded : added = n - (p.size + b.size + 64))
    (run : Returns (do
      let result ← sbrk added
      if result = mapFailed then pure false
      else do
        writeSize b.address (b.size + added)
        updateStatistics 0 0 added 0 0
        let currentSize ← readSize b.address
        assert (n ≤ wrap (currentSize + p.size + 2 * 32))
        pure true) s r t) :
    Returns (extendCurrent b.address (b.address - 32) n) s r t := by
  have split : Tiled s (pre ++ [p] ++ b :: []) := by simpa using tiled
  have needed : wrapSub n (wrap (p.size + b.size + 2 * 32)) = added := by
    rw [wrap_eq (by omega), wrapSub_eq (by omega) (by omega), isAdded]
  unfold extendCurrent
  refine Returns.bind split.reads_previous (Returns.bind (tiled.reads_size (b := b) (by simp)) ?_)
  simp only [SOM]
  rw [needed]
  exact run

/-- The extended heap with the last block's new size written and counted. -/
def lengthened (s v : State) (b : Block) (added : Nat) : State :=
  withStatistics (v.withBytes (setSize v.bytes b.address (b.size + added)))
    (s.globals.statistics.update 0 0 added 0 0)

theorem Extended.readied (extended : Extended s added v) (tiled : Tiled s (pre ++ [p, b]))
    (bounded : b.size + added < 2 ^ 64) :
    Readied s pre p b added (withWilderness (lengthened s v b added) p.address) := by
  have split : Tiled s (pre ++ [p] ++ b :: []) := by simpa using tiled
  have before : p.address + p.size + 64 = b.address := split.previous
  have isEnd : b.address + b.size + 64 = s.brk := split.place.2.2
  have footer : b.address - 32 = p.address + p.size + 32 := by omega
  have middle : Tile p.address [p, b] s.brk := by
    simp [Block.extent_eq]
    omega
  have below : Tile s.heapStart pre p.address :=
    ((show Tiled s (pre ++ [p, b] ++ []) by simpa using tiled).span middle (by simp)).1
  have opened : Opened v pre [] p.address (s.brk + added) [p.address, b.address] [] :=
    extended.opened tiled below middle
  have outside : Set.EqOn (lengthened s v b added).bytes v.bytes (cells b.address 8)ᶜ :=
    setSize_outside
  have storedPrev : Stored v.bytes p := extended.stored tiled (b := p) (by simp)
  refine ⟨?_, ?_, ?_, ?_, size_setSize bounded, fun i short => ?_, rfl⟩
  · exact ((opened.resize (m := b.address) (by simp)).perm (List.Perm.swap _ _ _)).congr rfl
  · exact (((extended.prepared (by omega)).resize (by omega) (by omega)).count _).point _
  · refine (size_frame outside fun x low high => ?_).trans storedPrev.size
    simp only [mem_cells]
    omega
  · rw [footer]
    refine (size_frame outside fun x low high => ?_).trans storedPrev.footSize
    simp only [mem_cells]
    omega
  · refine (outside ?_).trans (extended.below (by omega))
    simp only [Set.mem_compl_iff, mem_cells]
    omega

/-- When the heap has been extended, the last block is enlarged by what was
missing. -/
theorem extendCurrent_lengthens (extended : Extended s added v) (tiled : Tiled s (pre ++ [p, b]))
    (larger : p.size + b.size + 64 ≤ n) (request : n < 2 ^ 63)
    (isAdded : added = n - (p.size + b.size + 64)) (differs : s.brk ≠ mapFailed)
    (granting : Returns (sbrk added) s s.brk v) :
    Returns (extendCurrent b.address (b.address - 32) n) s true (lengthened s v b added) := by
  have isEnd : b.address + b.size + 64 = s.brk :=
    (show Tiled s (pre ++ [p] ++ b :: []) by simpa using tiled).place.2.2
  have low : s.heapStart ≤ b.address := (tiled.within (b := b) (by simp)).1
  have header : v.Mapped b.address 32 :=
    Machine.mapped_heap (by rw [extended.heapStart]; exact low) (by rw [extended.brk]; omega)
  have sized : size (lengthened s v b added).bytes b.address = b.size + added :=
    size_setSize (by omega)
  have counts : Returns (updateStatistics 0 0 added 0 0)
      (v.withBytes (setSize v.bytes b.address (b.size + added))) () (lengthened s v b added) := by
    unfold lengthened
    rw [← extended.globals]
    exact updateStatistics_returns
  apply extendCurrent_asks tiled larger request isAdded
  refine Returns.bind granting (Returns.ifNeg differs ?_)
  refine Returns.bind (writeSize_returns header) (Returns.bind counts ?_)
  apply Returns.bind (Returns.to (readSize_returns (by exact header)) sized)
  refine Returns.bind (assert_returns ?_) Returns.pure
  rw [wrap_eq (by omega)]
  omega

/-- Case b of the last block, which is extended first. -/
theorem growIntoPrevious_enters_extended (tiled : Tiled s (pre ++ [p, b]))
    (isLast : s.globals.blockList.wilderness = b.address) (apart : MapsApart s)
    (larger : p.size + b.size + 64 ≤ n) (request : n < 2 ^ 63) (added : Nat)
    (isAdded : added = n - (p.size + b.size + 64)) :
    (0 < added ∧ ¬s.Grants added ∧
      Returns (growIntoPrevious b.address (b.address - 32) n) s (some 0) (answered s)) ∨
      (added = 0 ∨ s.Grants added) ∧ ∃ x, Readied s pre p b added x ∧
        growIntoPrevious b.address (b.address - 32) n s =
          (absorbPrevious b.address (b.address - 32) >>= fun result => pure (some result)) x := by
  rcases tiled.sbrk_outcome apart added (by omega) with
    ⟨positive, denied, refused⟩ | ⟨granted, differs, v, granting, extended⟩
  · have asked : Returns (extendCurrent b.address (b.address - 32) n) s false (answered s) :=
      extendCurrent_asks tiled larger request isAdded
        (Returns.bind refused (Returns.ifPos rfl Returns.pure))
    have stays : Returns (prepareWilderness b.address (b.address - 32) n) s false (answered s) :=
      prepareWilderness_extends tiled larger
        (Returns.bind asked (Returns.ifNeg (by simp) Returns.pure))
    refine Or.inl ⟨positive, denied, ?_⟩
    unfold growIntoPrevious
    refine Returns.bind getWilderness_returns (Returns.ifPos isLast.symm (Returns.bind stays ?_))
    exact Returns.ifNeg (by simp) Returns.pure
  refine Or.inr ⟨granted, withWilderness (lengthened s v b added) p.address, ?_⟩
  have readied := extended.readied tiled (by omega)
  refine ⟨readied, ?_⟩
  have before : p.address + p.size + 64 = b.address :=
    (show Tiled s (pre ++ [p] ++ b :: []) by simpa using tiled).previous
  have isEnd : b.address + b.size + 64 = s.brk :=
    (show Tiled s (pre ++ [p] ++ b :: []) by simpa using tiled).place.2.2
  have ready : Returns (prepareWilderness b.address (b.address - 32) n) s true
      (withWilderness (lengthened s v b added) p.address) :=
    prepareWilderness_extends tiled larger (Returns.bind
      (extendCurrent_lengthens extended tiled larger request isAdded differs granting)
      (Returns.ifPos rfl (Returns.bind setWilderness_returns Returns.pure)))
  unfold growIntoPrevious
  apply getWilderness_returns.step.trans
  rw [if_pos isLast.symm]
  refine ready.step.trans ((congrFun (if_pos rfl) _).trans ?_)
  refine (Returns.to (readSize_returns (readied.opened.mapped (by omega) (by omega)))
    readied.sizeCurrent).step.trans ?_
  refine (Returns.to (readSize_returns (readied.opened.mapped (by omega) (by omega)))
    readied.sizeFooter).step.trans (congrFun (if_pos ?_) _)
  simp only [SOM]
  rw [wrap_eq (by omega)]
  omega

theorem growIntoPrevious_extends (tiled : Tiled s (pre ++ [p, b])) (live : b.free = false)
    (prevFree : p.free = true) (isLast : s.globals.blockList.wilderness = b.address)
    (apart : MapsApart s) (larger : p.size + b.size + 64 ≤ n) (request : n < 2 ^ 63)
    (spared : n - (p.size + b.size + 64) = 0 ∨ s.Grants (n - (p.size + b.size + 64)) →
      n ≤ 2 * p.size + 112) {rest : Alloc Nat} {stale fails : Prop} (never : ¬fails) :
    Attempt s (pre ++ [p, b]) b (afterPrevious b.address (b.address - 32) n rest)
      (n - (p.size + b.size + 64)) n stale fails := by
  have before : p.address + p.size + 64 = b.address :=
    (show Tiled s (pre ++ [p] ++ b :: []) by simpa using tiled).previous
  have isEnd : b.address + b.size + 64 = s.brk :=
    (show Tiled s (pre ++ [p] ++ b :: []) by simpa using tiled).place.2.2
  obtain ⟨added, isAdded⟩ : ∃ added, added = n - (p.size + b.size + 64) := ⟨_, rfl⟩
  rw [← isAdded] at spared ⊢
  rcases growIntoPrevious_enters_extended tiled isLast apart larger request added isAdded with
    ⟨positive, denied, refused⟩ | ⟨granted, x, readied, enters⟩
  · exact .refused positive denied s.globals.statistics (Returns.bind refused Returns.pure)
  have spared := spared granted
  obtain ⟨t, run, enlarged, last⟩ := absorbPrevious_returns readied.prepared readied.opened before
    (by omega) readied.sizePrev readied.sizeFooter readied.sizeCurrent (by omega)
    (show inUse [p, b] = [b] by simp [live, prevFree]) (by omega) readied.kept fun exact => by
      -- The block is extended first, then joined with the one before.
      simp only [List.append_nil] at exact
      have first : s.globals.statistics.update 0 0 added 0 0 =
          tally (pre ++ [p, { b with size := b.size + added }]) s.maps := by
        rw [exact]
        refine tally_update ?_ ?_ ?_ ?_ ?_ <;> simp [live, prevFree]
        omega
      rw [first]
      refine tally_update ?_ ?_ ?_ ?_ ?_ <;> simp [live, prevFree, filling] <;> omega
  rw [List.append_nil] at enlarged
  refine .grown granted never t _ (filling p.address (s.brk + added) false)
    (Returns.bind (x := some (p.address + 32)) (enters.trans (Returns.bind run Returns.pure))
      Returns.pure) enlarged (by simp only [filling]; omega) fun _ _ => ?_
  rw [last, readied.wilderness]
  simp [filling]

end OperatingSystems.Malloc3
