import OperatingSystems.Malloc3.Split

/-!
# Allocating a block

A request below the threshold is served by the first free block that is large
enough, whole or split, else by the free wilderness grown to size, else by a new
block at the break. A larger request gets a mapping. A refusal of the system
leaves everything but the pending answers as it was.
-/

namespace OperatingSystems.Malloc3

open Bytes Process MallocMetadata Tiling

variable {s t : State} {pre post blocks new : List Block} {b : Block} {n : Nat}

/-- The state after one answer of the system was used up. -/
def answered (s : State) : State := { s with replies := s.replies.tail }

/-- The smallest free block of at least `n` bytes, the lowest one among equals. -/
structure BestFit (blocks : List Block) (n : Nat) (b : Block) : Prop where
  member : b ∈ blocks
  free : b.free = true
  fits : n ≤ b.size
  least : ∀ c ∈ blocks, c.free = true → n ≤ c.size → c = b ∨ b.size < c.size ∨
    (b.size = c.size ∧ b.address < c.address)

/-- Only one block is the best fit. -/
theorem BestFit.unique {c : Block} (left : BestFit blocks n b) (right : BestFit blocks n c) :
    b = c := by
  rcases left.least c right.member right.free right.fits with same | before
  · exact same.symm
  rcases right.least b left.member left.free left.fits with same | after
  · exact same
  · omega

/-- The best fit depends only on the free blocks that are large enough. -/
theorem BestFit.congr (same : ∀ c : Block, c.free = true → n ≤ c.size → (c ∈ blocks ↔ c ∈ new)) :
    BestFit blocks n b ↔ BestFit new n b := by
  constructor
  · intro best
    exact ⟨(same b best.free best.fits).mp best.member, best.free, best.fits,
      fun c member free fits => best.least c ((same c free fits).mpr member) free fits⟩
  · intro best
    exact ⟨(same b best.free best.fits).mpr best.member, best.free, best.fits,
      fun c member free fits => best.least c ((same c free fits).mp member) free fits⟩

/-- Either no free block is large enough, or the best fit is found. -/
theorem searchFreeBlock_cases (tiled : Tiled s blocks) (n : Nat) :
    (Returns (searchFreeBlock n) s 0 s ∧ ∀ b ∈ blocks, b.free = true → b.size < n) ∨
      ∃ b, BestFit blocks n b ∧ Returns (searchFreeBlock n) s b.address s := by
  obtain ⟨nodes, perm, linked, sorted⟩ := tiled.listed
  obtain ⟨p, run, chosen⟩ := searchFreeBlock_chosen linked sorted n
  have node : ∀ {c : Block}, c ∈ blocks → c.address ∈ nodes := fun member =>
    perm.mem_iff.mpr (List.mem_map_of_mem member)
  cases chosen with
  | none null short =>
    subst null
    refine Or.inl ⟨run, fun c member free => ?_⟩
    have stored := tiled.stored c member
    exact stored.size ▸ short c.address (node member) (stored.free.trans free)
  | some _ inList free fits least =>
    obtain ⟨b, member, rfl⟩ := List.mem_map.mp (perm.mem_iff.mp inList)
    have own := tiled.stored b member
    refine Or.inr ⟨b, ⟨member, own.free.symm.trans free, own.size ▸ fits, fun c listed vacant large => ?_⟩, run⟩
    have stored := tiled.stored c listed
    rcases least c.address (node listed) (stored.free.trans vacant) (stored.size.symm ▸ large) with
      same | before
    · exact Or.inl (tiled.tiles.unique Block.extent_pos listed member same)
    · unfold Before at before
      rw [own.size, stored.size] at before
      exact Or.inr before

/-- Taking a free block whole is a step of the heap. -/
theorem Tiled.taken (tiled : Tiled s (pre ++ b :: post)) (free : b.free = true) :
    EvolvesExactly s (pre ++ b :: post)
      (withStatistics (s.withBytes (setFree (setFree s.bytes b.address false)
        (b.address + b.size + 32) false)) (s.globals.statistics.update 0 (-1) 0 (-b.size) 0))
      (pre ++ { b with free := false, foot := false } :: post) := by
  have marked := (tiled.markHeader false).markFooter false
  refine ⟨⟨marked.congr rfl, fun exact => ?_, fun shown c member => ?_, rfl, rfl, Nat.le_refl _, id,
    ?_⟩, fun exact => ?_, fun coalesced => ?_, rfl⟩
  · exact exact.trans
      (lastAddress_mark (b := b) (c := { b with free := false, foot := false }) rfl).symm
  · rcases List.mem_append.mp member with before | inTail
    · exact shown c (by simp [before])
    rcases List.mem_cons.mp inTail with rfl | after
    · simp
    · exact shown c (by simp [after])
  · refine (setFree_outside.mono ?_).trans (setFree_outside.mono ?_) <;>
    · refine Set.compl_subset_compl.mpr fun x inside => Or.inl (Or.inl ⟨b, by simp, ?_⟩)
      simp only [mem_cells] at inside
      omega
  · simp only [withStatistics, exact]
    refine tally_update ?_ ?_ ?_ ?_ ?_ <;> simp [free, Machine.withBytes] <;> omega
  · obtain ⟨inFront, inBack, _⟩ := coalesced_iff.mp coalesced
    exact coalesced_iff.mpr ⟨inFront, inBack, rfl, Or.inr rfl, Or.inl rfl⟩

/-- The cut that `smalloc` or `srealloc` would make in a block leaves an upper
part that is smaller than the threshold. -/
def SmallCut (blockSize n : Nat) : Prop :=
  splits blockSize n → wrapSub (wrapSub blockSize n) (2 * SOM) < MMAP_THRESHOLD

instance (blockSize n : Nat) : Decidable (SmallCut blockSize n) :=
  inferInstanceAs (Decidable (_ → _))

/-- The free blocks that are too small for the request keep their payloads,
and their headers keep their sizes unless the block itself was extended. -/
def Spares (s : State) (old : List Block) (t : State) (n : Nat) (c : Block) : Prop :=
  ∀ m ∈ old, m.free = true → m.size < n →
    (m.address = c.address ∨ size t.bytes m.address = m.size) ∧
      ∀ x, m.address + 32 ≤ x → x < m.address + 32 + m.size → t.bytes x = s.bytes x

/-- What a successful request for a block of the heap achieves. -/
structure Allocated (s : State) (old : List Block) (t : State) (new : List Block) (n : Nat)
    (c : Block) : Prop where
  evolves : Evolves s old t new
  used : (inUse new).Perm (c :: inUse old)
  aligned : Aligned old → Aligned new
  spares : Spares s old t n c

/-- A payload that lies in blocks before and after a step keeps its bytes. -/
theorem Evolves.payload {old : List Block} {m c : Block} (evolves : Evolves s old t new)
    (tiles : Tile s.heapStart old s.brk) (before : m ∈ old) (after : c ∈ new) {x : Nat}
    (low : m.address + 32 ≤ x) (high : x < m.address + 32 + m.size) (low' : c.address + 32 ≤ x)
    (high' : x < c.address + 32 + c.size) : t.bytes x = s.bytes x := by
  apply evolves.frame
  rintro ((inOld | inNew) | fresh)
  · exact payload_clear tiles before low high inOld
  · exact payload_clear evolves.tiled.tiles after low' high' inNew
  · have := tiles.within before
    rw [m.extent_eq] at this
    have := fresh.1
    omega

/-- A step that leaves the small free blocks in place spares them. -/
theorem Evolves.spares {old : List Block} {c : Block} (evolves : Evolves s old t new)
    (tiles : Tile s.heapStart old s.brk)
    (kept : ∀ m ∈ old, m.free = true → m.size < n → m ∈ new ∨
      m.address = c.address ∧ c ∈ new ∧ n ≤ c.size) : Spares s old t n c := by
  intro m member free small
  rcases kept m member free small with after | ⟨same, after, large⟩
  · exact ⟨Or.inr (evolves.tiled.stored m after).size, fun x low high =>
      evolves.payload tiles member after low high low high⟩
  · exact ⟨Or.inl same, fun x low high =>
      evolves.payload tiles member after low high (by omega) (by omega)⟩

/-- The two parts of a block tile its place. -/
theorem Tile.cut {low high : Nat} (tiles : Tile low (pre ++ b :: post) high) (room : n + 64 ≤ b.size) :
    Tile low (pre ++ b.low n :: b.high n :: post) high := by
  obtain ⟨middle, below, rfl, above⟩ := tiles_append.mp tiles
  refine tiles_append.mpr ⟨b.address, below, rfl, ?_, ?_⟩
  · simp [Block.extent_eq]
    omega
  · rw [b.extent_eq] at above
    rw [Block.extent_eq, Block.extent_eq]
    have same : b.address + ((b.low n).size + 64) + ((b.high n).size + 64) =
        b.address + (b.size + 64) := by
      simp
      omega
    rw [same]
    exact above

/-- A cut in a block that is large enough spares the others. -/
theorem Cut.spares {c : Block} (cut : Cut s pre b post n t new)
    (tiles : Tile s.heapStart (pre ++ b :: post) s.brk) (room : n + 64 ≤ b.size) :
    Spares s (pre ++ b :: post) t n c := by
  intro m member free small
  have other : m ∈ pre ++ post := by
    rcases List.mem_append.mp member with before | member
    · exact List.mem_append_left _ before
    rcases List.mem_cons.mp member with rfl | after
    · omega
    · exact List.mem_append_right _ after
  refine ⟨Or.inr (cut.sizes m other), fun x low high => cut.within ?_⟩
  rintro (inOld | inParts)
  · exact payload_clear tiles member low high inOld
  · refine payload_clear (Tile.cut tiles room) (b := m) ?_ low high inParts
    rcases List.mem_append.mp other with before | after <;> simp [*]

/-- `smalloc` on a free block with room for another one behind the request. -/
theorem reuseBlock_split (tiled : Tiled s (pre ++ b :: post)) (request : n ≤ 100000007)
    (room : n + 192 ≤ b.size) (split : Returns (splitBlock n b.address) s () t) :
    Returns (reuseBlock n b.address) s (b.address + 32) t := by
  have bound := tiled.within (b := b) (by simp)
  have top := tiled.small
  have whether := splits_iff (k := b.size) (n := n) (by omega) request
  unfold reuseBlock
  apply Returns.bind (tiled.reads_size (b := b) (by simp))
  exact Returns.ifPos (whether.mpr room) (Returns.bind split Returns.pure)

/-- `smalloc` on a free block without that room, which is handed out whole. -/
theorem reuseBlock_whole (tiled : Tiled s (pre ++ b :: post)) (request : n ≤ 100000007)
    (room : ¬n + 192 ≤ b.size) :
    Returns (reuseBlock n b.address) s (b.address + 32)
      (withStatistics (s.withBytes (setFree (setFree s.bytes b.address false)
        (b.address + b.size + 32) false)) (s.globals.statistics.update 0 (-1) 0 (-b.size) 0)) := by
  have header := tiled.header_mapped (b := b) (by simp)
  have whether := splits_iff (k := b.size) (n := n) (by omega) request
  have flagged := (tiled.markHeader false).reads_size (b := { b with free := false }) (by simp)
  have footed := ((tiled.markHeader false).markFooter false).reads_size
    (b := { b with free := false, foot := false }) (by simp)
  unfold reuseBlock
  apply Returns.bind (tiled.reads_size (b := b) (by simp))
  apply Returns.ifNeg (mt whether.mp room)
  apply Returns.bind (writeFree_returns header.1)
  refine Returns.bind flagged (Returns.bind (writeFree_returns (by exact header.2)) ?_)
  apply Returns.bind footed
  exact Returns.bind updateStatistics_returns Returns.pure

/-- `smalloc` on a free block that is large enough. -/
theorem reuseBlock_returns (tiled : Tiled s (pre ++ b :: post)) (free : b.free = true)
    (fits : n ≤ b.size) (request : n ≤ 100000007) (even : n % 8 = 0) (shown : Shown pre)
    (apart : MapsApart s) :
    ∃ t new c, Returns (reuseBlock n b.address) s (c.address + 32) t ∧
      Allocated s (pre ++ b :: post) t new n c ∧ n ≤ c.size ∧
      (SmallCut b.size n → EvolvesExactly s (pre ++ b :: post) t new) := by
  have bound := tiled.within (b := b) (by simp)
  have top := tiled.small
  have whether := splits_iff (k := b.size) (n := n) (by omega) request
  have marked : { b with free := true } = b := by rw [← free]
  by_cases room : n + 192 ≤ b.size
  · have cut : wrapSub (wrapSub b.size n) (2 * SOM) = b.size - n - 64 :=
      upperSize_eq (by omega) (by omega)
    obtain ⟨t, new, split, carve, divides⟩ := splitBlock_outcome tiled room shown apart
    refine ⟨t, new, b.low n, reuseBlock_split tiled request room split, ⟨carve.evolves, ?_,
      carve.aligned even, carve.spares tiled.tiles (by omega)⟩, Nat.le_refl n, fun guard => ?_⟩
    · rw [carve.used]
      simp [free, List.perm_middle]
    · have upper := guard (whether.mpr room)
      rw [cut] at upper
      have divided := divides upper
      refine ⟨carve.evolves, ?_, fun coalesced => ?_, divided.strays⟩
      · simpa only [marked] using divided.counters
      · obtain ⟨inFront, inBack, _⟩ := coalesced_iff.mp coalesced
        exact divided.coalesced inFront inBack
  · have taken := tiled.taken free
    refine ⟨_, _, { b with free := false, foot := false }, reuseBlock_whole tiled request room,
      ⟨taken.toEvolves, ?_, ?_, taken.spares tiled.tiles fun m member _ small => ?_⟩, fits,
      fun _ => taken⟩
    · simp [free, List.perm_middle]
    · simp
    · apply Or.inl
      rcases List.mem_append.mp member with before | member
      · simp [before]
      rcases List.mem_cons.mp member with rfl | after
      · omega
      · simp [after]

/-- The common end of the two ways to grow the heap: the interval up to the
break becomes a block in use. -/
theorem finishBlock_returns {a : Nat} (opened : Opened s pre [] a (a + n + 64) [] []) :
    ∃ bytes head, Returns (finishBlock n a) s (a + 32) (relink s bytes head 1) ∧
      Tiled (relink s bytes head 1) (pre ++ [⟨a, n, false, false⟩]) ∧
      Set.EqOn bytes s.bytes
        (records (pre ++ [⟨a, n, false, false⟩]))ᶜ := by
  have top : s.brk < 2 ^ 64 - 1 := opened.small
  have isEnd : a + n + 64 = s.brk := opened.above
  have sized : Set.EqOn (setSize s.bytes a n) s.bytes (cells a 8)ᶜ := setSize_outside
  have flagged : Set.EqOn (setFree (setSize s.bytes a n) a false) (setSize s.bytes a n)
      (cells (a + 8) 1)ᶜ := setFree_outside
  have written := (opened.write sized
    (fun x inside => by simp only [mem_cells] at inside; omega)
    (fun m member => absurd member List.not_mem_nil)
    (fun m member => absurd member List.not_mem_nil)).write
    flagged
    (fun x inside => by simp only [mem_cells] at inside; omega)
    (fun m member => absurd member List.not_mem_nil)
    (fun m member => absurd member List.not_mem_nil)
  have sizeNow : size (setFree (setSize s.bytes a n) a false) a = a + n + 64 - a - 64 := by
    rw [size_frame flagged fun x low high => by simp only [mem_cells]; omega,
      size_setSize (by omega)]
    omega
  obtain ⟨bytes, head, run, _, header, footer, tiled, frame⟩ :=
    written.join (by omega) sizeNow isFree_setFree
  have filled : filling a (a + n + 64) false = ⟨a, n, false, false⟩ := by
    simp [filling]
    omega
  have place : a + n + 64 - 32 = a + n + 32 := by omega
  rw [filled] at tiled
  rw [place] at footer tiled frame
  have mapped : s.Mapped a 32 := opened.mapped (Nat.le_refl a) (by omega)
  refine ⟨copy bytes (a + n + 32) a 32, head, ?_, tiled, ?_⟩
  · unfold finishBlock
    apply Returns.bind (writeSize_returns mapped)
    refine Returns.bind (writeFree_returns (by exact mapped)) (Returns.bind run ?_)
    exact Returns.bind (memmove_returns header footer) Returns.pure
  · have nodes : linkCells (a :: (pre ++ []).map Block.address) ⊆
        records (pre ++ [⟨a, n, false, false⟩]) := by
      refine (linkCells_mono fun m member => ?_).trans linkCells_records
      simpa [or_comm] using member
    refine (frame.mono ?_).trans ((flagged.mono ?_).trans (sized.mono ?_)) <;>
      apply Set.compl_subset_compl.mpr
    · refine Set.union_subset nodes fun x inside => ⟨⟨a, n, false, false⟩, by simp, Or.inr ?_⟩
      simp only [mem_cells] at inside
      simp only
      omega
    · intro x inside
      simp only [mem_cells] at inside
      exact ⟨⟨a, n, false, false⟩, by simp, Or.inl (by simp only; omega)⟩
    · intro x inside
      simp only [mem_cells] at inside
      exact ⟨⟨a, n, false, false⟩, by simp, Or.inl (by simp only; omega)⟩

/-- Growing the heap is a step whose new blocks end with one in use. -/
theorem grown_evolves {old : List Block} {bytes m : Memory} {head a top : Nat} {delta : Int}
    {statistics : Statistics} {replies : List Reply} {wilderness : Nat}
    (tiled : Tiled (relink { s with brk := top, bytes := m, replies := replies } bytes head delta)
      (pre ++ [⟨a, n, false, false⟩])) (up : s.brk ≤ top)
    (clear : ∀ region ∈ s.maps, region.1 + region.2 ≤ s.heapStart ∨ top ≤ region.1)
    (fresh : Set.EqOn m s.bytes (Set.Ico s.brk top)ᶜ)
    (frame : Set.EqOn bytes m (records old ∪ records (pre ++ [⟨a, n, false, false⟩]))ᶜ)
    (moved : s.globals.blockList.wilderness = lastAddress old → wilderness = a)
    (counters : s.globals.statistics = tally old s.maps →
      statistics = tally (pre ++ [⟨a, n, false, false⟩]) s.maps)
    (kept : ∀ c ∈ pre, c ∈ old) (coalesced : Coalesced old → Coalesced pre) :
    EvolvesExactly s old
      (withWilderness (withStatistics (relink
        { s with brk := top, bytes := m, replies := replies } bytes head delta) statistics) wilderness)
      (pre ++ [⟨a, n, false, false⟩]) := by
  refine ⟨⟨tiled.congr rfl, fun exact => ?_, fun shown c member => ?_, rfl, rfl, up, fun _ => clear,
    ?_⟩, counters, fun whole => ?_, rfl⟩
  · rw [lastAddress_append_cons, lastAddress_singleton]
    exact moved exact
  · rcases List.mem_append.mp member with before | own
    · exact shown c (kept c before)
    · obtain rfl := List.mem_singleton.mp own
      simp
  · refine (frame.mono ?_).trans (fresh.mono ?_) <;> refine Set.compl_subset_compl.mpr ?_
    · exact Set.subset_union_left
    · exact Set.subset_union_right
  · exact coalesced_iff.mpr ⟨coalesced whole, ⟨by simp, by simp⟩, rfl, Or.inr rfl, Or.inl rfl⟩

/-- `smalloc` when the wilderness is free but too small. -/
theorem growWilderness_returns (tiled : Tiled s (pre ++ [b])) (free : b.free = true)
    (larger : b.size < n) (request : n < 2 ^ 63)
    (wilderness : s.globals.blockList.wilderness = b.address) :
    (¬s.Grants (n - b.size) ∧ Returns (growWilderness n b.address) s 0 (answered s)) ∨
      s.Grants (n - b.size) ∧ ∃ t, Returns (growWilderness n b.address) s (b.address + 32) t ∧
        EvolvesExactly s (pre ++ [b]) t (pre ++ [⟨b.address, n, false, false⟩]) := by
  obtain ⟨below, middle, above⟩ := tiled.place
  have isEnd : b.address + b.size + 64 = s.brk := above
  have needed : wrapSub n b.size = n - b.size := wrapSub_eq (by omega) (by omega)
  have begin : ∀ {p : Nat} {t : State}, Returns (do
        let result ← sbrk (n - b.size)
        if result = mapFailed then pure 0
        else do
          updateStatistics 0 (-1) ((n - b.size : Nat) : Int) (-b.size) 0
          removeMetadata b.address
          finishBlock n b.address) s p t →
      Returns (growWilderness n b.address) s p t := by
    intro p t run
    unfold growWilderness
    apply Returns.bind (tiled.reads_size (b := b) (by simp))
    rw [needed]
    exact Returns.bind (assert_returns larger) run
  rcases sbrk_cases s (n := n - b.size) (by omega) (by omega) with
    ⟨denied, refused⟩ | ⟨allowed, m, granted, fresh, top, clear⟩
  · exact Or.inl ⟨denied, begin (Returns.bind refused (Returns.ifPos rfl Returns.pure))⟩
  · rw [show s.brk + (n - b.size) = b.address + n + 64 by omega] at granted fresh top clear
    have whole : Tiled s (pre ++ [b] ++ []) := by simpa using tiled
    have grown := (whole.opened below middle above).grow (b.address + n + 64)
      s.replies.tail (by omega) (by omega) fresh
    obtain ⟨u, isCounted⟩ : ∃ u, u = withStatistics
        { s with brk := b.address + n + 64, bytes := m, replies := s.replies.tail }
        (s.globals.statistics.update 0 (-1) ((n - b.size : Nat) : Int) (-b.size) 0) := ⟨_, rfl⟩
    have counted : Opened u pre [] b.address (b.address + n + 64) [b.address] [] := by
      rw [isCounted]
      exact grown.congr rfl
    obtain ⟨bare, head₁, removed, cleared, frame₁⟩ := counted.remove (n := b.address) (by simp)
    simp only [List.erase_cons_head] at cleared
    obtain ⟨bytes, head₂, finished, done, frame₂⟩ := finishBlock_returns cleared
    have same : relink (relink u bare head₁ (-1)) bytes head₂ 1 =
        withWilderness (withStatistics (relink
          { s with brk := b.address + n + 64, bytes := m, replies := s.replies.tail } bytes head₂
          (-1 + 1)) (s.globals.statistics.update 0 (-1) ((n - b.size : Nat) : Int) (-b.size) 0))
          s.globals.blockList.wilderness := by
      rw [relink_relink, isCounted]
      rfl
    have differs : s.brk ≠ mapFailed := by
      unfold mapFailed
      omega
    have counts : Returns (updateStatistics 0 (-1) ((n - b.size : Nat) : Int) (-b.size) 0)
        { s with brk := b.address + n + 64, bytes := m, replies := s.replies.tail } () u := by
      rw [isCounted]
      exact updateStatistics_returns
    refine Or.inr ⟨allowed, _, begin (Returns.bind granted (Returns.ifNeg differs
      (Returns.bind counts (Returns.bind removed finished)))), ?_⟩
    rw [same]
    rw [relink_relink] at done
    refine grown_evolves (done.congr ?_) (by omega) clear fresh ?_ (fun _ => wilderness) ?_ ?_ ?_
    · rw [isCounted]
      rfl
    · refine (frame₂.mono ?_).trans ?_
      · exact Set.compl_subset_compl.mpr Set.subset_union_right
      · rw [isCounted] at frame₁
        refine frame₁.mono (Set.compl_subset_compl.mpr (Set.Subset.trans ?_ Set.subset_union_left))
        refine (linkCells_mono fun m member => ?_).trans linkCells_records
        simp only [List.erase_cons_head, List.append_nil, List.nil_append] at member
        simp [List.mem_map.mp member]
    · intro exact
      rw [exact]
      refine tally_update ?_ ?_ ?_ ?_ ?_ <;> simp [free]
      omega
    · intro c member
      simp [member]
    · intro coalesced
      exact (coalesced_iff.mp coalesced).1

/-- The break needs no alignment: the heap starts aligned, and the test is only
made while it is empty. -/
theorem alignBreak_returns (tiled : Tiled s blocks) : Returns alignBreak s true s := by
  unfold alignBreak
  refine Returns.bind globals_returns (Returns.bind sbrk_zero (Returns.ifNeg ?_ Returns.pure))
  rintro ⟨empty, odd⟩
  rw [tiled.counted] at empty
  have none : blocks = [] := by simpa using empty
  subst none
  have start : s.heapStart = s.brk := tiled.tiles
  exact odd (start ▸ tiled.aligned)

/-- `smalloc` of a new block at the break. -/
theorem appendBlock_returns (tiled : Tiled s blocks) (request : n < 2 ^ 62) :
    (¬s.Grants (n + 64) ∧ Returns (appendBlock n) s 0 (answered s)) ∨
      s.Grants (n + 64) ∧ ∃ t, Returns (appendBlock n) s (s.brk + 32) t ∧
        EvolvesExactly s blocks t (blocks ++ [⟨s.brk, n, false, false⟩]) := by
  have begin : ∀ {p : Nat} {t : State}, Returns (do
        let address ← sbrk (n + 2 * 32)
        if address = mapFailed then pure 0
        else do
          setWilderness address
          updateStatistics 1 0 n 0 (2 * 32)
          finishBlock n address) s p t →
      Returns (appendBlock n) s p t := fun run =>
    Returns.bind (alignBreak_returns tiled) (Returns.ifPos rfl run)
  rcases sbrk_cases s (n := n + 2 * 32) (by omega) (by omega) with
    ⟨denied, refused⟩ | ⟨allowed, m, granted, fresh, top, clear⟩
  · exact Or.inl ⟨denied, begin (Returns.bind refused (Returns.ifPos rfl Returns.pure))⟩
  · rw [show s.brk + (n + 2 * 32) = s.brk + n + 64 by omega] at granted fresh top clear
    have whole : Tiled s (blocks ++ [] ++ []) := by simpa using tiled
    have grown := (whole.opened tiled.tiles rfl rfl).grow (s.brk + n + 64)
      s.replies.tail (by omega) (by omega) fresh
    obtain ⟨u, isCounted⟩ : ∃ u, u = withStatistics (withWilderness
        { s with brk := s.brk + n + 64, bytes := m, replies := s.replies.tail } s.brk)
        (s.globals.statistics.update 1 0 n 0 (2 * 32)) := ⟨_, rfl⟩
    have counted : Opened u blocks [] s.brk (s.brk + n + 64) [] [] := by
      rw [isCounted]
      exact grown.congr rfl
    obtain ⟨bytes, head, finished, done, frame⟩ := finishBlock_returns counted
    have same : relink u bytes head 1 = withWilderness (withStatistics (relink
        { s with brk := s.brk + n + 64, bytes := m, replies := s.replies.tail } bytes head 1)
        (s.globals.statistics.update 1 0 n 0 (2 * 32))) s.brk := by
      rw [isCounted]
      rfl
    have differs : s.brk ≠ mapFailed := by
      unfold mapFailed
      omega
    have counts : Returns (updateStatistics 1 0 n 0 (2 * 32)) (withWilderness
        { s with brk := s.brk + n + 64, bytes := m, replies := s.replies.tail } s.brk) () u := by
      rw [isCounted]
      exact updateStatistics_returns
    refine Or.inr ⟨allowed, _, begin (Returns.bind granted (Returns.ifNeg differs (Returns.bind
      setWilderness_returns (Returns.bind counts finished)))), ?_⟩
    rw [same]
    refine grown_evolves (done.congr ?_) (by omega) clear fresh ?_ (fun _ => rfl) ?_ ?_ id
    · rw [isCounted]
      rfl
    · rw [isCounted] at frame
      exact frame.mono (Set.compl_subset_compl.mpr Set.subset_union_right)
    · intro exact
      rw [exact]
      refine tally_update ?_ ?_ ?_ ?_ ?_ <;> simp <;> omega
    · exact fun c member => member

/-- The state after a mapping was made for a payload of `n` bytes. -/
def mapped (s : State) (address n : Nat) : State :=
  { answered s with
    maps := (address, n + 32) :: s.maps
    bytes := setFree (setSize (fill s.bytes address (n + 32) 0) address n) address false
    globals := { s.globals with
      statistics := s.globals.statistics.update 1 0 n 0 (2 * 32) } }

/-- `smalloc` of a large block. -/
theorem mmapBlock_returns (s : State) (n : Nat) :
    (¬s.Maps (n + 32) ∧ Returns (mmapBlock n) s 0 (answered s)) ∨
      s.Maps (n + 32) ∧ ∃ address, Returns (mmapBlock n) s (address + 32) (mapped s address n) ∧
        s.CanMap address (n + 32) := by
  rcases mmap_cases s (n + 32) with ⟨denied, refused⟩ | ⟨allowed, address, granted, can⟩
  · exact Or.inl ⟨denied, Returns.bind refused (Returns.ifPos rfl Returns.pure)⟩
  · have differs : address ≠ mapFailed := by
      have := can.2.2.1
      unfold mapFailed
      omega
    have header : ∀ t : State, (address, n + 32) ∈ t.maps → t.Mapped address 32 :=
      fun t listed => Or.inr (Or.inr ⟨_, listed, Nat.le_refl _, by simp only; omega⟩)
    refine Or.inr ⟨allowed, address, Returns.bind granted (Returns.ifNeg differs ?_), can⟩
    apply Returns.bind (writeSize_returns (header _ (by simp)))
    apply Returns.bind (writeFree_returns (header _ (by simp [Machine.withBytes])))
    exact Returns.bind updateStatistics_returns Returns.pure

/-- The guard under which a request makes no large cut: when it is served by a
free block, that block is not split or has a small upper part. -/
def SmallRequest (s : State) (n : Nat) : Prop :=
  0 < n → n ≤ 100000000 → roundUp n < MMAP_THRESHOLD →
    match searchFreeBlock (roundUp n) s with
    | .ok (a, _) => a ≠ 0 → SmallCut (size s.bytes a) (roundUp n)
    | .error _ => True

instance (s : State) (n : Nat) : Decidable (SmallRequest s n) := by
  unfold SmallRequest
  cases searchFreeBlock (roundUp n) s with
  | ok found => exact inferInstance
  | error fault => exact inferInstance

/-- The guard in terms of the blocks. -/
theorem Tiled.smallRequest (tiled : Tiled s blocks) : SmallRequest s n ↔
    (0 < n → n ≤ 100000000 → roundUp n < MMAP_THRESHOLD →
      ∀ b, BestFit blocks (roundUp n) b → SmallCut b.size (roundUp n)) := by
  unfold SmallRequest
  rcases searchFreeBlock_cases tiled (roundUp n) with ⟨search, none⟩ | ⟨b, best, search⟩
  · rw [show searchFreeBlock (roundUp n) s = _ from search]
    constructor
    · intro _ _ _ _ b best
      exact absurd best.fits (Nat.not_le.mpr (none b best.member best.free))
    · intro _ _ _ _ present
      exact absurd rfl present
  · have proper : b.address ≠ 0 := by
      have := tiled.tiles.within best.member
      have := tiled.proper
      omega
    rw [show searchFreeBlock (roundUp n) s = _ from search]
    simp only [(tiled.stored b best.member).size]
    constructor
    · intro guard positive request small c other
      rw [← best.unique other]
      exact guard positive request small proper
    · intro guard positive request small _
      exact guard positive request small b best

theorem roundUp_le {n : Nat} : n ≤ roundUp n ∧ roundUp n ≤ n + 7 ∧ roundUp n % 8 = 0 := by
  unfold roundUp
  split <;> omega

/-- The bytes by which the heap has to grow for a block of `n` bytes at its end. -/
def shortage (blocks : List Block) (n : Nat) : Nat :=
  match blocks.getLast? with
  | some b => if b.free then n - b.size else n + 64
  | none => n + 64

@[simp] theorem shortage_nil : shortage [] n = n + 64 := rfl

@[simp] theorem shortage_concat :
    shortage (pre ++ [b]) n = if b.free then n - b.size else n + 64 := by
  simp [shortage]

/-- A request can be satisfied: a free block is large enough, or the system
grants what is missing. -/
def Satisfiable (s : State) (blocks : List Block) (n : Nat) : Prop :=
  0 < n ∧ n ≤ 100000000 ∧
    if roundUp n < MMAP_THRESHOLD then
      (∃ b ∈ blocks, b.free = true ∧ roundUp n ≤ b.size) ∨ s.Grants (shortage blocks (roundUp n))
    else s.Maps (roundUp n + 32)

instance (s : State) (blocks : List Block) (n : Nat) : Decidable (Satisfiable s blocks n) :=
  inferInstanceAs (Decidable (_ ∧ _ ∧ ite _ _ _))

/-- `smalloc` once no free block was found: it extends the free wilderness, or
appends a block. -/
theorem growHeap_returns (tiled : Tiled s blocks)
    (wilderness : s.globals.blockList.wilderness = lastAddress blocks) (request : n < 2 ^ 62)
    (even : n % 8 = 0) (none : ∀ b ∈ blocks, b.free = true → b.size < n) :
    (¬s.Grants (shortage blocks n) ∧ Returns (growHeap n) s 0 (answered s)) ∨
      s.Grants (shortage blocks n) ∧ ∃ t new c, Returns (growHeap n) s (c.address + 32) t ∧
        Allocated s blocks t new n c ∧ c.size = n ∧ EvolvesExactly s blocks t new := by
  have append : Returns wildernessFree s false s → shortage blocks n = n + 64 →
      (¬s.Grants (shortage blocks n) ∧ Returns (growHeap n) s 0 (answered s)) ∨
        s.Grants (shortage blocks n) ∧ ∃ t new c, Returns (growHeap n) s (c.address + 32) t ∧
          Allocated s blocks t new n c ∧ c.size = n ∧ EvolvesExactly s blocks t new := by
    intro notFree missing
    rw [missing]
    rcases appendBlock_returns tiled request with ⟨denied, refused⟩ | ⟨allowed, t, run, evolves⟩
    · exact Or.inl ⟨denied, Returns.bind notFree (Returns.ifNeg (by simp) refused)⟩
    · refine Or.inr ⟨allowed, t, _, ⟨s.brk, n, false, false⟩,
        Returns.bind notFree (Returns.ifNeg (by simp) run),
        ⟨evolves.toEvolves, ?_, ?_, evolves.spares tiled.tiles fun m member _ _ => ?_⟩, rfl, evolves⟩
      · simp
      · simp [even]
      · exact Or.inl (by simp [member])
  rcases List.eq_nil_or_concat blocks with rfl | ⟨pre, b, rfl⟩
  · refine append (Returns.bind getWilderness_returns ?_) shortage_nil
    rw [wilderness]
    exact Returns.ifPos rfl Returns.pure
  · rw [List.concat_eq_append] at *
    have isLast : s.globals.blockList.wilderness = b.address := by
      rw [wilderness, lastAddress_append_cons, lastAddress_singleton]
    have header := tiled.header_mapped (b := b) (by simp)
    have stored := tiled.stored b (by simp)
    have proper : b.address ≠ 0 := by
      have := tiled.tiles.within (x := b) (by simp)
      have := tiled.proper
      omega
    have reads : Returns wildernessFree s b.free s := by
      apply Returns.bind getWilderness_returns
      rw [isLast]
      exact Returns.ifNeg proper ((readFree_returns header.1).to stored.free)
    cases free : b.free with
    | false => exact append (free ▸ reads) (by simp [free])
    | true =>
      rw [free] at reads
      rw [shortage_concat, free, if_pos rfl]
      have short := none b (by simp) free
      rcases growWilderness_returns tiled free short (by omega) isLast with
        ⟨denied, refused⟩ | ⟨allowed, t, run, evolves⟩
      · exact Or.inl ⟨denied, Returns.bind reads (Returns.ifPos rfl
          (Returns.bind (getWilderness_returns.to isLast) refused))⟩
      · refine Or.inr ⟨allowed, t, _, ⟨b.address, n, false, false⟩,
          Returns.bind reads (Returns.ifPos rfl
            (Returns.bind (getWilderness_returns.to isLast) run)),
          ⟨evolves.toEvolves, ?_, ?_, evolves.spares tiled.tiles fun m member _ _ => ?_⟩, rfl, evolves⟩
        · simp [free]
        · intro aligned
          simp [even, (aligned_append.mp aligned).1]
        · rcases List.mem_append.mp member with before | own
          · exact Or.inl (by simp [before])
          · obtain rfl := List.mem_singleton.mp own
            exact Or.inr ⟨rfl, by simp, Nat.le_refl _⟩

/-- `smalloc` below the threshold. -/
theorem smalloc_heap (tiled : Tiled s blocks)
    (wilderness : s.globals.blockList.wilderness = lastAddress blocks) (shown : Shown blocks)
    (apart : MapsApart s) (positive : 0 < n) (request : n ≤ 100000000) (small : roundUp n < MMAP_THRESHOLD) :
    (¬Satisfiable s blocks n ∧ Returns (smalloc n) s 0 (answered s)) ∨
      Satisfiable s blocks n ∧ ∃ t new c, Returns (smalloc n) s (c.address + 32) t ∧
        Allocated s blocks t new (roundUp n) c ∧
        roundUp n ≤ c.size ∧ (SmallRequest s n → EvolvesExactly s blocks t new) := by
  have whether : Satisfiable s blocks n ↔ (∃ b ∈ blocks, b.free = true ∧ roundUp n ≤ b.size) ∨
      s.Grants (shortage blocks (roundUp n)) := by
    simp [Satisfiable, positive, request, small]
  obtain ⟨larger, within, even⟩ := roundUp_le (n := n)
  have begin : ∀ {p : Nat} {t : State}, Returns (do
        let address ← searchFreeBlock (roundUp n)
        if address ≠ 0 then reuseBlock (roundUp n) address else growHeap (roundUp n)) s p t →
      Returns (smalloc n) s p t := fun run =>
    Returns.ifNeg (by omega) (Returns.ifPos small run)
  rcases searchFreeBlock_cases tiled (roundUp n) with ⟨search, none⟩ |
    ⟨b, best, search⟩
  · have unfit : ¬∃ b ∈ blocks, b.free = true ∧ roundUp n ≤ b.size := by
      rintro ⟨b, member, free, fits⟩
      exact absurd fits (Nat.not_le.mpr (none b member free))
    rcases growHeap_returns tiled wilderness (by omega) even none with
      ⟨denied, refused⟩ | ⟨allowed, t, new, c, run, allocated, sized, evolves⟩
    · exact Or.inl ⟨fun satisfiable => (whether.mp satisfiable).elim unfit denied,
        begin (Returns.bind search (Returns.ifNeg (by simp) refused))⟩
    · exact Or.inr ⟨whether.mpr (Or.inr allowed), t, new, c,
        begin (Returns.bind search (Returns.ifNeg (by simp) run)), allocated, by omega,
        fun _ => evolves⟩
  · have proper : b.address ≠ 0 := by
      have := tiled.tiles.within best.member
      have := tiled.proper
      omega
    obtain ⟨pre, post, rfl⟩ := List.append_of_mem best.member
    obtain ⟨t, new, c, run, allocated, sized, exactly⟩ := reuseBlock_returns tiled best.free best.fits
      (by omega) even (fun c member => shown c (by simp [member])) apart
    exact Or.inr ⟨whether.mpr (Or.inl ⟨b, best.member, best.free, best.fits⟩), t, new, c,
      begin (Returns.bind search (Returns.ifPos proper run)), allocated, by omega,
      fun guard => exactly (tiled.smallRequest.mp guard positive request small b best)⟩

/-- `smalloc` from the threshold on. -/
theorem smalloc_large (s : State) (blocks : List Block) (positive : 0 < n) (request : n ≤ 100000000)
    (large : MMAP_THRESHOLD ≤ roundUp n) :
    (¬Satisfiable s blocks n ∧ Returns (smalloc n) s 0 (answered s)) ∨
      Satisfiable s blocks n ∧ ∃ address,
        Returns (smalloc n) s (address + 32) (mapped s address (roundUp n)) ∧
        s.CanMap address (roundUp n + 32) := by
  have whether : Satisfiable s blocks n ↔ s.Maps (roundUp n + 32) := by
    simp [Satisfiable, positive, request, Nat.not_lt.mpr large]
  have begin : ∀ {p : Nat} {t : State}, Returns (mmapBlock (roundUp n)) s p t →
      Returns (smalloc n) s p t := fun run =>
    Returns.ifNeg (by omega) (Returns.ifNeg (Nat.not_lt.mpr large) run)
  rcases mmapBlock_returns s (roundUp n) with ⟨denied, refused⟩ | ⟨allowed, address, run, can⟩
  · exact Or.inl ⟨mt whether.mp denied, begin refused⟩
  · exact Or.inr ⟨whether.mpr allowed, address, begin run, can⟩

/-- `smalloc` of nothing or of too much. -/
theorem smalloc_outside (s : State) (blocks : List Block) (outside : n = 0 ∨ 100000000 < n) :
    ¬Satisfiable s blocks n ∧ Returns (smalloc n) s 0 s := by
  refine ⟨fun satisfiable => ?_, Returns.ifPos outside Returns.pure⟩
  obtain ⟨positive, request, _⟩ := satisfiable
  omega

end OperatingSystems.Malloc3
