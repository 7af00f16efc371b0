import OperatingSystems.Malloc3.Accounts

/-!
# Freeing a block

`sfree` marks a block free in its header and footer and merges it with its free
neighbours. Whatever the neighbours are, the result is one description: a run
of free blocks around the freed one, bounded by blocks in use, becomes a single
free block, and nothing but records is written. A block that `sfree` takes for
a mapping only has its header marked.
-/

namespace OperatingSystems.Malloc3

open Bytes Process MallocMetadata Tiling

variable {s t : State} {pre mid post : List Block} {b n p : Block} {a e : Nat}

/-- A change inside a block that spares its size and its links. -/
theorem Tiled.rewrite (tiled : Tiled s (pre ++ b :: post)) {bytes : Memory} {changed : Set Nat}
    (frame : Set.EqOn bytes s.bytes changedᶜ)
    (inside : ∀ x ∈ changed, b.address + 8 ≤ x ∧ x < b.address + b.size + 64)
    (links : ∀ x ∈ changed, x < b.address + 16 ∨ b.address + 32 ≤ x) {c : Block}
    (address : c.address = b.address) (size : c.size = b.size) (stored : Stored bytes c) :
    Tiled (s.withBytes bytes) (pre ++ c :: post) := by
  obtain ⟨below, middle, above⟩ := tiled.place
  rw [show pre ++ b :: post = pre ++ [b] ++ post by simp] at tiled
  have written := (tiled.reopened below middle above).write frame
    (fun x here => by have := inside x here; omega)
    (fun m member x here => by
      have own : m = b.address := by simpa using member
      have := links x here
      omega)
    (fun m member x here => by
      have own : m = b.address := by simpa using member
      have := inside x here
      omega)
  have closed := written.close (show Tile b.address [c] (b.address + b.size + 64) by
      simp [address, size, Block.extent_eq]; omega)
    (List.forall_mem_singleton.mpr stored) (by simp [address])
  rw [show pre ++ c :: post = pre ++ [c] ++ post by simp]
  exact closed

/-- Marking a header changes the flag of the block. -/
theorem Tiled.markHeader (tiled : Tiled s (pre ++ b :: post)) (flag : Bool) :
    Tiled (s.withBytes (setFree s.bytes b.address flag)) (pre ++ { b with free := flag } :: post) := by
  obtain ⟨size, free, footSize, foot⟩ := tiled.stored b (by simp)
  have frame : Set.EqOn (setFree s.bytes b.address flag) s.bytes (cells (b.address + 8) 1)ᶜ :=
    setFree_outside
  refine tiled.rewrite frame ?_ ?_ rfl rfl ⟨?_, isFree_setFree, ?_, ?_⟩
  · intro x inside
    simp only [mem_cells] at inside
    omega
  · intro x inside
    simp only [mem_cells] at inside
    omega
  · refine (size_frame frame fun x low high => ?_).trans size
    simp only [mem_cells] at low high ⊢
    omega
  · refine (size_frame frame fun x low high => ?_).trans footSize
    simp only [mem_cells] at low high ⊢
    omega
  · refine (isFree_frame frame fun x low high => ?_).trans foot
    simp only [mem_cells] at low high ⊢
    omega

/-- Marking a footer changes the flag it shows to the next block. -/
theorem Tiled.markFooter (tiled : Tiled s (pre ++ b :: post)) (flag : Bool) :
    Tiled (s.withBytes (setFree s.bytes (b.address + b.size + 32) flag))
      (pre ++ { b with foot := flag } :: post) := by
  obtain ⟨size, free, footSize, foot⟩ := tiled.stored b (by simp)
  have frame : Set.EqOn (setFree s.bytes (b.address + b.size + 32) flag) s.bytes
      (cells (b.address + b.size + 32 + 8) 1)ᶜ := setFree_outside
  refine tiled.rewrite frame ?_ ?_ rfl rfl ⟨?_, ?_, ?_, isFree_setFree⟩
  · intro x inside
    simp only [mem_cells] at inside
    omega
  · intro x inside
    simp only [mem_cells] at inside
    omega
  · refine (size_frame frame fun x low high => ?_).trans size
    simp only [mem_cells] at low high ⊢
    omega
  · refine (isFree_frame frame fun x low high => ?_).trans free
    simp only [mem_cells] at low high ⊢
    omega
  · refine (size_frame frame fun x low high => ?_).trans footSize
    simp only [mem_cells] at low high ⊢
    omega

/-- The records of a block are accessible. -/
theorem Tiled.header_mapped {blocks : List Block} (tiled : Tiled s blocks) (member : b ∈ blocks) :
    s.Mapped b.address 32 ∧ s.Mapped (b.address + b.size + 32) 32 := by
  have := tiled.within member
  exact ⟨Machine.mapped_heap (by omega) (by omega), Machine.mapped_heap (by omega) (by omega)⟩

/-- A listed block's header is read as its size. -/
theorem Tiled.reads_size {blocks : List Block} (tiled : Tiled s blocks) (member : b ∈ blocks) :
    Returns (readSize b.address) s b.size s :=
  (readSize_returns (tiled.header_mapped member).1).to (tiled.stored b member).size

/-- The flag in the footer before a place. -/
def footBefore (pre : List Block) : Bool := (pre.getLast?.map Block.foot).getD false

/-- The flag in the header behind a place. -/
def freeAfter (post : List Block) : Bool := (post.head?.map Block.free).getD false

@[simp] theorem footBefore_concat : footBefore (pre ++ [p]) = p.foot := by
  simp [footBefore]

@[simp] theorem freeAfter_cons : freeAfter (n :: post) = n.free := rfl

/-- The room that merging with the block before a place gains. -/
def gainBefore (pre : List Block) : Nat :=
  if footBefore pre then (pre.getLast?.map Block.size).getD 0 + 64 else 0

/-- The room that merging with the block behind a place gains. -/
def gainAfter (post : List Block) : Nat :=
  if freeAfter post then (post.head?.map Block.size).getD 0 + 64 else 0

@[simp] theorem gainBefore_concat : gainBefore (pre ++ [p]) = if p.foot then p.size + 64 else 0 := by
  simp [gainBefore]

@[simp] theorem gainAfter_cons : gainAfter (n :: post) = if n.free then n.size + 64 else 0 := rfl

theorem gainBefore_none (used : footBefore pre = false) : gainBefore pre = 0 := by
  simp [gainBefore, used]

theorem gainAfter_none (used : freeAfter post = false) : gainAfter post = 0 := by
  simp [gainAfter, used]

/-- The free block that a freed block becomes part of. -/
def Block.merged (pre : List Block) (b : Block) (post : List Block) : Block :=
  ⟨b.address - gainBefore pre, b.size + gainBefore pre + gainAfter post, true, true⟩

/-- A block has no predecessor for the allocator exactly when it is the first. -/
theorem previousFooter_returns (tiled : Tiled s (pre ++ b :: post)) :
    Returns (previousFooter b.address) s (if pre = [] then 0 else b.address - 32) s := by
  have first : b.address = s.globals.sbrkStart ↔ pre = [] := by
    rw [tiled.origin]
    rcases List.eq_nil_or_concat pre with rfl | ⟨front, last, rfl⟩
    · simpa using tiled.place.1.symm
    · have := tiled.place.1.within (x := last) (by simp)
      rw [last.extent_eq] at this
      simp
      omega
  have run : Returns (previousFooter b.address) s
      (if b.address = s.globals.sbrkStart then 0 else b.address - 32) s := rfl
  simpa only [first] using run

/-- A block has no successor for the allocator exactly when it is the last. -/
theorem nextHeader_returns (tiled : Tiled s (pre ++ b :: post)) :
    Returns (nextHeader b.address) s (if post = [] then 0 else b.address + b.size + 64) s := by
  have last : b.address + b.size + 2 * 32 = s.brk ↔ post = [] := by
    have above := tiled.place.2.2
    cases post with
    | nil => simpa using above
    | cons n post =>
      have := above.within (x := n) (by simp)
      rw [n.extent_eq] at this
      simp
      omega
  have run : Returns (nextHeader b.address) s
      (if b.address + b.size + 2 * 32 = s.brk then 0 else b.address + b.size + 2 * 32) s :=
    Returns.bind (tiled.reads_size (b := b) (by simp)) (Returns.bind sbrk_zero Returns.pure)
  simpa only [last] using run

/-- The flag of the predecessor is read from its footer. -/
theorem previousFree_returns (tiled : Tiled s (pre ++ b :: post)) :
    Returns (freeOrNull (if pre = [] then 0 else b.address - 32)) s (footBefore pre) s := by
  rcases List.eq_nil_or_concat pre with rfl | ⟨front, p, rfl⟩
  · exact Returns.ifPos rfl Returns.pure
  · rw [List.concat_eq_append] at *
    have beside : p.address + p.size + 64 = b.address := by
      have := (tiles_append.mp tiled.place.1)
      obtain ⟨middle, _, rfl, finish⟩ := this
      rw [p.extent_eq] at finish
      exact finish
    have place : b.address - 32 = p.address + p.size + 32 := by omega
    have footer := (tiled.header_mapped (b := p) (by simp)).2
    rw [if_neg (by simp), place, footBefore_concat]
    apply Returns.ifNeg (by omega)
    exact (readFree_returns footer).to (tiled.stored p (by simp)).foot

/-- The flag of the successor is read from its header. -/
theorem nextFree_returns (tiled : Tiled s (pre ++ b :: post)) :
    Returns (freeOrNull (if post = [] then 0 else b.address + b.size + 64)) s (freeAfter post) s := by
  cases post with
  | nil => exact Returns.ifPos rfl Returns.pure
  | cons n post =>
    have place : n.address = b.address + b.size + 64 := tiled.place.2.2.1
    have header := (tiled.header_mapped (b := n) (by simp)).1
    rw [if_neg (by simp), ← place, freeAfter_cons]
    apply Returns.ifNeg (by omega)
    exact (readFree_returns header).to (tiled.stored n (by simp)).free

/-- A tiled interval that is not empty ends with a block. -/
theorem Tile.last (tiles : Tile a mid e) (occupied : mid ≠ []) :
    ∃ c ∈ mid, c.address + c.size + 64 = e := by
  rcases List.eq_nil_or_concat mid with rfl | ⟨front, c, rfl⟩
  · exact absurd rfl occupied
  · rw [List.concat_eq_append] at *
    obtain ⟨middle, _, rfl, finish⟩ := tiles_append.mp tiles
    rw [c.extent_eq] at finish
    exact ⟨c, by simp, finish⟩

/-- The interval of some blocks of a tiled heap is tiled below and above. -/
theorem Tiled.span (tiled : Tiled s (pre ++ mid ++ post)) (middle : Tile a mid e)
    (occupied : mid ≠ []) : Tile s.heapStart pre a ∧ Tile e post s.brk := by
  obtain ⟨finish, front, above⟩ := tiles_append.mp tiled.tiles
  obtain ⟨begin, below, inside⟩ := tiles_append.mp front
  obtain ⟨rfl, rfl⟩ := inside.bounds middle occupied
  exact ⟨below, above⟩

/-- The size and the flag of a block in an interval lie neither among the links nor
in the footer at the interval's end. -/
theorem Tiled.fields_clear (tiled : Tiled s (pre ++ mid ++ post)) (middle : Tile a mid e)
    {order : List Nat} (perm : (mid.map Block.address).Perm order) (member : b ∈ mid) {x : Nat}
    (low : b.address ≤ x) (high : x < b.address + 16) :
    x ∉ linkCells (order ++ (pre ++ post).map Block.address) ∪ cells (e - 32) 32 := by
  obtain ⟨below, above⟩ := tiled.span middle (List.ne_nil_of_mem member)
  have place := middle.within member
  rw [b.extent_eq] at place
  rintro (⟨m, known, within⟩ | footer)
  · rcases List.mem_append.mp known with own | other
    · obtain ⟨d, inMid, rfl⟩ := List.mem_map.mp (perm.mem_iff.mpr own)
      by_cases same : b = d
      · subst same
        omega
      · have := middle.disjoint member inMid same
        simp only [Block.extent_eq] at this
        omega
    · have := (tiled.opened below middle above).apart (x := b.address) place.1 (by omega) other
      unfold Apart at this
      omega
  · simp only [mem_cells] at footer
    omega

/-- The links of all blocks and the footer at an interval's end lie in records. -/
theorem closing_records (middle : Tile a mid e) (filled : mid ≠ []) {order : List Nat}
    (perm : (mid.map Block.address).Perm order) :
    linkCells (order ++ (pre ++ post).map Block.address) ∪ cells (e - 32) 32 ⊆
      records (pre ++ mid ++ post) := by
  obtain ⟨c, inMid, finish⟩ := Tile.last middle filled
  have known : c ∈ pre ++ mid ++ post := List.mem_append_left _ (List.mem_append_right _ inMid)
  refine Set.union_subset ((linkCells_mono fun m member => ?_).trans linkCells_records) fun x inside => ?_
  · rcases List.mem_append.mp member with own | other
    · obtain ⟨d, inMid, rfl⟩ := List.mem_map.mp (perm.mem_iff.mpr own)
      exact List.mem_map_of_mem (List.mem_append_left _ (List.mem_append_right _ inMid))
    · obtain ⟨d, beside, rfl⟩ := List.mem_map.mp other
      apply List.mem_map_of_mem
      rcases List.mem_append.mp beside with before | after <;> simp [*]
  · simp only [mem_cells] at inside
    exact ⟨c, known, Or.inr (by omega)⟩

/-- The common work of the three merges: enlarge the first of several adjacent
blocks over all of them, take their headers off the list, list the first again
and write its footer. The headers of the others stay behind inside the block. -/
theorem Tiled.fuse (tiled : Tiled s (pre ++ (b :: mid) ++ post)) (middle : Tile b.address (b :: mid) e)
    (order : List Nat) (perm : ((b :: mid).map Block.address).Perm order) (total : Nat)
    (sized : total = e - b.address - 64) :
    ∃ bytes head delta,
      (∀ {β : Type} {rest : Alloc β} {r : β} {u : State},
        Returns rest (relink s bytes head delta) r u →
        Returns (writeSize b.address total >>= fun _ =>
          order.foldr (fun n rest => removeMetadata n >>= fun _ => rest)
            (addMetadata b.address >>= fun _ => copyFooter b.address >>= fun _ => rest)) s r u) ∧
      Tiled (relink s bytes head delta) (pre ++ filling b.address e b.free :: post) ∧
      (∀ c ∈ mid, size bytes c.address = c.size) ∧
      (∀ c ∈ b :: mid, isFree bytes c.address = c.free) ∧
      Set.EqOn bytes s.bytes (records (pre ++ (b :: mid) ++ post))ᶜ := by
  obtain ⟨below, above⟩ := tiled.span middle (by simp)
  have top := above.le
  have small := tiled.small
  have room := middle.within (x := b) (by simp)
  rw [b.extent_eq] at room
  have storedAll : ∀ c ∈ b :: mid, Stored s.bytes c := fun c member =>
    tiled.stored c (List.mem_append_left _ (List.mem_append_right _ member))
  have later : ∀ c ∈ mid, b.address + 64 ≤ c.address ∧ c.address + c.size + 64 ≤ e := by
    intro c member
    have place := middle.2.within member
    rw [b.extent_eq, c.extent_eq] at place
    omega
  have listed : ∀ m ∈ order, ∃ c ∈ b :: mid, c.address = m := fun m member =>
    List.mem_map.mp (perm.mem_iff.mpr member)
  have outside : Set.EqOn (setSize s.bytes b.address total) s.bytes (cells b.address 8)ᶜ :=
    setSize_outside
  have sizeCells : ∀ x, b.address + 8 ≤ x → x ∉ cells b.address 8 := fun x low => by
    simp only [mem_cells]
    omega
  -- The new size lies in the first eight cells of the interval.
  have written := ((tiled.opened below middle above).perm perm).write outside
    (fun x inside => by simp only [mem_cells] at inside; omega)
    (fun m member x inside => by
      obtain ⟨c, other, rfl⟩ := listed m (by simpa using member)
      simp only [mem_cells] at inside
      rcases List.mem_cons.mp other with rfl | other
      · omega
      · have := later c other
        omega)
    (fun m member => absurd member List.not_mem_nil)
  have flagFirst : isFree (setSize s.bytes b.address total) b.address = b.free :=
    (isFree_frame outside fun x low _ => sizeCells x low).trans (storedAll b (by simp)).free
  have first : b.address ∈ order := perm.mem_iff.mp (by simp)
  obtain ⟨bytes, head, delta, run, closed, frame⟩ :=
    written.rejoin order first (by omega) ((size_setSize (by omega)).trans sized) flagFirst
  have clear : ∀ c ∈ b :: mid, ∀ x, c.address ≤ x → x < c.address + 16 →
      x ∉ linkCells (order ++ (pre ++ post).map Block.address) ∪ cells (e - 32) 32 :=
    fun c member x => tiled.fields_clear middle perm member
  refine ⟨bytes, head, delta, ?_, closed, ?_, ?_, ?_⟩
  · intro β rest r u after
    exact Returns.bind (writeSize_returns (tiled.header_mapped (b := b) (by simp)).1) (run after)
  · intro c member
    have place := later c member
    refine (size_frame frame fun x low high => clear c (by simp [member]) x low (by omega)).trans ?_
    refine (size_frame outside fun x low high => sizeCells x (by omega)).trans ?_
    exact (storedAll c (by simp [member])).size
  · intro c member
    refine (isFree_frame frame fun x low high => clear c member x (by omega) (by omega)).trans ?_
    refine (isFree_frame outside fun x low high => sizeCells x ?_).trans (storedAll c member).free
    rcases List.mem_cons.mp member with rfl | member
    · exact low
    · have := later c member
      omega
  · have closing : linkCells (order ++ (pre ++ post).map Block.address) ∪ cells (e - 32) 32 ⊆
        records (pre ++ (b :: mid) ++ post) := closing_records middle (by simp) perm
    refine (frame.mono (Set.compl_subset_compl.mpr closing)).trans
      (outside.mono (Set.compl_subset_compl.mpr fun x inside => ?_))
    simp only [mem_cells] at inside
    exact ⟨b, by simp, Or.inl (by omega)⟩

/-- Adjacent blocks with `b` among them, all of them free, become one free block. -/
inductive Fuses (b : Block) : List Block → List Block → Prop
  | intro (front mid back : List Block) (a e : Nat) (tiles : Tile a mid e) (member : b ∈ mid)
      (free : ∀ c ∈ mid, c.free = true) :
      Fuses b (front ++ mid ++ back) (front ++ filling a e true :: back)

/-- Headers and footers agree, and no two adjacent blocks are both free. -/
structure Coalesced (blocks : List Block) : Prop where
  agree : ∀ b ∈ blocks, b.foot = b.free
  apart : blocks.IsChain fun x y => x.free = false ∨ y.free = false

/-- A coalesced list taken apart at a block. -/
theorem coalesced_iff : Coalesced (pre ++ b :: post) ↔
    Coalesced pre ∧ Coalesced post ∧ b.foot = b.free ∧
      (footBefore pre = false ∨ b.free = false) ∧ (b.free = false ∨ freeAfter post = false) := by
  constructor
  · rintro ⟨agree, apart⟩
    obtain ⟨front, tail, across⟩ := List.isChain_append.mp apart
    obtain ⟨ahead, back⟩ := List.isChain_cons.mp tail
    refine ⟨⟨fun c member => agree c (by simp [member]), front⟩,
      ⟨fun c member => agree c (by simp [member]), back⟩, agree b (by simp), ?_, ?_⟩
    · rcases List.eq_nil_or_concat pre with rfl | ⟨front, p, rfl⟩
      · exact Or.inl rfl
      · have := across p (by simp) b (by simp)
        rw [List.concat_eq_append, footBefore_concat, agree p (by simp)]
        exact this
    · cases post with
      | nil => exact Or.inr rfl
      | cons n post => exact ahead n (by simp)
  · rintro ⟨⟨agreeFront, front⟩, ⟨agreeBack, back⟩, agree, before, after⟩
    refine ⟨fun c member => ?_, List.isChain_append.mpr ⟨front, List.isChain_cons.mpr ⟨?_, back⟩, ?_⟩⟩
    · rcases List.mem_append.mp member with inFront | inBack
      · exact agreeFront c inFront
      · rcases List.mem_cons.mp inBack with rfl | inBack
        · exact agree
        · exact agreeBack c inBack
    · intro n isHead
      cases post with
      | nil => simp at isHead
      | cons m post =>
        obtain rfl : m = n := by simpa using isHead
        exact after
    · intro p isLast c isHead
      obtain rfl : b = c := by simpa using isHead
      rcases List.eq_nil_or_concat pre with rfl | ⟨more, q, rfl⟩
      · simp at isLast
      · obtain rfl : q = p := by simpa using isLast
        rw [List.concat_eq_append, footBefore_concat, agreeFront q (by simp)] at before
        exact before

/-- A footer shows a block free only when its header does. -/
def Shown (blocks : List Block) : Prop := ∀ b ∈ blocks, b.foot = true → b.free = true

/-- The blocks in use. -/
def inUse (blocks : List Block) : List Block := blocks.filter fun b => !b.free

@[simp] theorem inUse_append {xs ys : List Block} : inUse (xs ++ ys) = inUse xs ++ inUse ys :=
  List.filter_append xs ys

@[simp] theorem inUse_cons {xs : List Block} :
    inUse (b :: xs) = if b.free then inUse xs else b :: inUse xs := by
  cases flag : b.free <;> simp [inUse, flag]

@[simp] theorem inUse_nil : inUse [] = [] := rfl

theorem mem_inUse {blocks : List Block} : b ∈ inUse blocks ↔ b ∈ blocks ∧ b.free = false := by
  simp [inUse]

/-- Fusing free blocks leaves the blocks in use as they are. -/
theorem Fuses.inUse {old new : List Block} (fuses : Fuses b old new) : inUse new = inUse old := by
  obtain ⟨front, mid, back, a, e, _, _, free⟩ := fuses
  have none : Malloc3.inUse mid = [] := List.filter_eq_nil_iff.mpr fun c member => by
    simp [free c member]
  simp [none, filling]

/-- The records of a fused run are those of its first and last block. -/
theorem Fuses.records {old new : List Block} (fuses : Fuses b old new) :
    records new ⊆ records old := by
  obtain ⟨front, mid, back, a, e, tiles, member, _⟩ := fuses
  rintro x ⟨c, listed, inside⟩
  rcases List.mem_append.mp listed with inFront | listed
  · exact ⟨c, by simp [inFront], inside⟩
  rcases List.mem_cons.mp listed with rfl | inBack
  · have occupied : mid ≠ [] := List.ne_nil_of_mem member
    obtain ⟨last, inMid, finish⟩ := Tile.last tiles occupied
    obtain ⟨first, rest, rfl⟩ := List.exists_cons_of_ne_nil occupied
    have start : first.address = a := tiles.1
    have room := tiles.within (x := last) inMid
    rw [last.extent_eq] at room
    rcases inside with header | footer
    · exact ⟨first, by simp, Or.inl (by simpa [start, filling] using header)⟩
    · refine ⟨last, List.mem_append_left _ (List.mem_append_right _ inMid), Or.inr ?_⟩
      simp only [filling] at footer
      omega
  · exact ⟨c, by simp [inBack], inside⟩

/-- A fused run is shown free because it is. -/
theorem Fuses.shown {old new : List Block} (fuses : Fuses b old new) (shown : Shown old) :
    Shown new := by
  obtain ⟨front, mid, back, a, e, _, _, _⟩ := fuses
  intro c listed
  rcases List.mem_append.mp listed with inFront | listed
  · exact shown c (by simp [inFront])
  rcases List.mem_cons.mp listed with rfl | inBack
  · exact fun _ => rfl
  · exact shown c (by simp [inBack])

/-- Every payload size is a multiple of 8. -/
def Aligned (blocks : List Block) : Prop := ∀ b ∈ blocks, b.size % 8 = 0

@[simp] theorem aligned_append {xs ys : List Block} :
    Aligned (xs ++ ys) ↔ Aligned xs ∧ Aligned ys := by
  simp [Aligned, or_imp, forall_and]

@[simp] theorem aligned_cons {xs : List Block} :
    Aligned (b :: xs) ↔ b.size % 8 = 0 ∧ Aligned xs := by
  simp [Aligned]

@[simp] theorem aligned_nil : Aligned [] := by
  simp [Aligned]

/-- Aligned blocks tile intervals of aligned length. -/
theorem Aligned.length {blocks : List Block} (aligned : Aligned blocks) {low high : Nat}
    (tiles : Tile low blocks high) : high % 8 = low % 8 := by
  induction blocks generalizing low with
  | nil => rw [tiles_nil.mp tiles]
  | cons b blocks inductionHypothesis =>
    have first := aligned_cons.mp aligned
    have rest := inductionHypothesis first.2 tiles.2
    rw [b.extent_eq] at rest
    omega

/-- A fused run is aligned when its parts are. -/
theorem Fuses.aligned {old new : List Block} (fuses : Fuses b old new) (aligned : Aligned old) :
    Aligned new := by
  obtain ⟨front, mid, back, a, e, tiles, member, _⟩ := fuses
  simp only [aligned_append, aligned_cons] at aligned ⊢
  have whole := aligned.1.2.length tiles
  refine ⟨aligned.1.1, ?_, aligned.2⟩
  simp only [filling]
  omega

/-- Every mapping lies outside the heap. -/
def MapsApart (s : State) : Prop :=
  ∀ region ∈ s.maps, region.1 + region.2 ≤ s.heapStart ∨ s.brk ≤ region.1

/-- A step of the allocator over the heap: the blocks before and after it, and
the only cells it may change. -/
structure Evolves (s : State) (old : List Block) (t : State) (new : List Block) : Prop where
  tiled : Tiled t new
  wilderness : s.globals.blockList.wilderness = lastAddress old →
    t.globals.blockList.wilderness = lastAddress new
  shown : Shown old → Shown new
  heapStart : t.heapStart = s.heapStart
  maps : t.maps = s.maps
  grows : s.brk ≤ t.brk
  apart : MapsApart s → MapsApart t
  frame : Set.EqOn t.bytes s.bytes (records old ∪ records new ∪ Set.Ico s.brk t.brk)ᶜ

/-- A step that also keeps the heap coalesced and its counters exact, and gives
nothing to `munmap`. -/
structure EvolvesExactly (s : State) (old : List Block) (t : State) (new : List Block) : Prop
    extends Evolves s old t new where
  counters : s.globals.statistics = tally old s.maps → t.globals.statistics = tally new t.maps
  coalesced : Coalesced old → Coalesced new
  strays : t.strayUnmaps = s.strayUnmaps

/-- The block marked free in its header and footer. -/
def Block.freed (b : Block) : Block := { b with free := true, foot := true }

@[simp] theorem Block.freed_address (b : Block) : b.freed.address = b.address := rfl

@[simp] theorem Block.freed_size (b : Block) : b.freed.size = b.size := rfl

@[simp] theorem Block.freed_free (b : Block) : b.freed.free = true := rfl

@[simp] theorem Block.freed_foot (b : Block) : b.freed.foot = true := rfl

/-- What freeing the block `b` achieves. The counters and the frame speak of
the blocks before, the fused run of the blocks once `b` is marked. -/
structure Merged (s : State) (pre : List Block) (b : Block) (post : List Block) (t : State)
    (new : List Block) : Prop where
  fuses : Fuses b.freed (pre ++ b.freed :: post) new
  tiled : Tiled t new
  rest : t = rebuilt s t.bytes t.globals.blockList t.globals.statistics
  wilderness : s.globals.blockList.wilderness = lastAddress (pre ++ b :: post) →
    t.globals.blockList.wilderness = lastAddress new
  counters : ∀ maps, s.globals.statistics = tally (pre ++ b :: post) maps →
    t.globals.statistics = tally new maps
  coalesced : Coalesced pre → Coalesced post → Coalesced new
  alone : footBefore pre = false → freeAfter post = false → new = pre ++ b.freed :: post ∧
    t.globals.blockList.wilderness = s.globals.blockList.wilderness
  block : b.merged pre post ∈ new
  sizes : ∀ c ∈ pre ++ b :: post,
    c.address = (b.merged pre post).address ∨ size t.bytes c.address = c.size
  flags : ∀ c ∈ pre ++ b.freed :: post, isFree t.bytes c.address = c.free
  frame : Set.EqOn t.bytes s.bytes (records (pre ++ b :: post))ᶜ

/-- The last block keeps its address when a block is only marked. -/
theorem lastAddress_mark {c : Block} (address : c.address = b.address) :
    lastAddress (pre ++ c :: post) = lastAddress (pre ++ b :: post) := by
  cases post <;> simp [address]

/-- The records stay where they are when a block is only marked. -/
theorem records_mark {c : Block} (address : c.address = b.address) (size : c.size = b.size) :
    records (pre ++ c :: post) = records (pre ++ b :: post) := by
  ext x
  simp [records, or_and_right, exists_or, address, size]

/-- The last block of a heap after some blocks became one, by the test the
merges make. -/
theorem lastAddress_fuse {low high : Nat} {front back : List Block} {last c : Block}
    (tiles : Tile low (front ++ (mid ++ [last]) ++ back) high) :
    (if last.address = lastAddress (front ++ (mid ++ [last]) ++ back) then c.address
      else lastAddress (front ++ (mid ++ [last]) ++ back)) = lastAddress (front ++ c :: back) := by
  have regroup : front ++ (mid ++ [last]) ++ back = front ++ mid ++ last :: back := by simp
  rw [regroup] at tiles ⊢
  obtain ⟨middle, _, tail⟩ := tiles_append.mp tiles
  have whether := lastAddress_eq tail
  rw [lastAddress_append_cons, lastAddress_append_cons]
  cases back with
  | nil => simp
  | cons d back =>
    have differs : last.address ≠ lastAddress (last :: d :: back) := fun same =>
      absurd (whether.mp same.symm) (by simp)
    rw [if_neg differs, lastAddress_cons_cons, lastAddress_cons_cons]

/-- The state with another wilderness. -/
def withWilderness (s : State) (wilderness : Nat) : State :=
  { s with globals := { s.globals with
    blockList := { s.globals.blockList with wilderness := wilderness } } }

theorem getWilderness_returns {s : State} :
    Returns getWilderness s s.globals.blockList.wilderness s := rfl

theorem setWilderness_returns {s : State} {wilderness : Nat} :
    Returns (setWilderness wilderness) s () (withWilderness s wilderness) := rfl

/-- The test that ends every merge. -/
theorem moveWilderness_returns {s : State} {old new : Nat} :
    Returns (do let wilderness ← getWilderness; doIf (old = wilderness) (setWilderness new)) s ()
      (withWilderness s (if old = s.globals.blockList.wilderness then new
        else s.globals.blockList.wilderness)) := by
  apply Returns.bind getWilderness_returns
  by_cases same : old = s.globals.blockList.wilderness
  · rw [if_pos same]
    exact doIf_pos same setWilderness_returns
  · rw [if_neg same]
    exact doIf_neg same

/-- The state with other counters. -/
def withStatistics (s : State) (statistics : Statistics) : State :=
  { s with globals := { s.globals with statistics := statistics } }

theorem updateStatistics_returns {s : State} {blocks free bytes freeBytes records : Int} :
    Returns (updateStatistics blocks free bytes freeBytes records) s ()
      (withStatistics s (s.globals.statistics.update blocks free bytes freeBytes records)) := rfl

/-- A fused run with its counters updated and its wilderness test made is what
`mergeBlocks` is for. -/
theorem Merged.of_fuse {front back : List Block} {last : Block} {bytes : Memory} {head : Nat}
    {delta : Int} (statistics : Statistics) (tiles : Tile s.heapStart (pre ++ b.freed :: post) s.brk)
    (same : pre ++ b.freed :: post = front ++ (mid ++ [last]) ++ back) (middle : Tile a (mid ++ [last]) e)
    (member : b.freed ∈ mid ++ [last]) (free : ∀ c ∈ mid ++ [last], c.free = true)
    (bounded : Coalesced pre → Coalesced post → Coalesced front ∧ Coalesced back ∧
      footBefore front = false ∧ freeAfter back = false)
    (joined : footBefore pre = true ∨ freeAfter post = true)
    (start : a = b.address - gainBefore pre)
    (length : e - a - 64 = b.size + gainBefore pre + gainAfter post)
    (closed : Tiled (relink s bytes head delta) (front ++ filling a e true :: back))
    (sizes : ∀ c ∈ mid ++ [last], c.address = a ∨ size bytes c.address = c.size)
    (flags : ∀ c ∈ mid ++ [last], isFree bytes c.address = c.free)
    (frame : Set.EqOn bytes s.bytes (records (front ++ (mid ++ [last]) ++ back))ᶜ)
    (counters : ∀ maps, s.globals.statistics = tally (pre ++ b :: post) maps →
      statistics = tally (front ++ filling a e true :: back) maps) :
    Merged s pre b post
      (withWilderness (withStatistics (relink s bytes head delta) statistics)
        (if last.address = s.globals.blockList.wilderness then a
          else s.globals.blockList.wilderness))
      (front ++ filling a e true :: back) where
  fuses := same ▸ Fuses.intro front (mid ++ [last]) back a e middle member free
  tiled := closed.congr rfl
  rest := rfl
  wilderness := by
    intro exact
    have moved := lastAddress_fuse (c := filling a e true) (same ▸ tiles)
    rw [← same, lastAddress_mark (c := b.freed) (b := b) rfl, ← exact] at moved
    exact moved
  counters := counters
  coalesced := by
    intro coalescedPre coalescedPost
    obtain ⟨inFront, inBack, before, after⟩ := bounded coalescedPre coalescedPost
    exact coalesced_iff.mpr ⟨inFront, inBack, rfl, Or.inl before, Or.inr after⟩
  alone := by
    intro before after
    simp [before, after] at joined
  block := by
    have same : b.merged pre post = filling a e true := by
      unfold Block.merged filling
      rw [← start, ← length]
    rw [same]
    simp
  sizes := by
    have marked : ∀ c ∈ pre ++ b.freed :: post, c.address = (b.merged pre post).address ∨
        size bytes c.address = c.size := by
      intro c listed
      rw [same] at listed
      rcases List.mem_append.mp listed with inFront | inBack
      · rcases List.mem_append.mp inFront with inFront | inside
        · exact Or.inr (closed.stored c (by simp [inFront])).size
        · exact (sizes c inside).imp_left fun first => first.trans start
      · exact Or.inr (closed.stored c (by simp [inBack])).size
    intro c listed
    rcases List.mem_append.mp listed with inFront | listed
    · exact marked c (by simp [inFront])
    rcases List.mem_cons.mp listed with rfl | inBack
    · exact marked c.freed (by simp)
    · exact marked c (by simp [inBack])
  flags := by
    intro c listed
    rw [same] at listed
    rcases List.mem_append.mp listed with inFront | inBack
    · rcases List.mem_append.mp inFront with inFront | inside
      · exact (closed.stored c (by simp [inFront])).free
      · exact flags c inside
    · exact (closed.stored c (by simp [inBack])).free
  frame := by
    rw [← same, records_mark (c := b.freed) (b := b) rfl rfl] at frame
    exact frame

/-- The block before a place ends there. -/
theorem Tiled.previous (tiled : Tiled s (pre ++ [p] ++ b :: post)) :
    p.address + p.size + 64 = b.address := by
  obtain ⟨middle, _, rfl, finish⟩ := tiles_append.mp tiled.place.1
  exact finish

/-- The footer before a block is read as the size of the block it ends. -/
theorem Tiled.reads_previous (tiled : Tiled s (pre ++ [p] ++ b :: post)) :
    Returns (readSize (b.address - 32)) s p.size s := by
  have placeB : p.address + p.size + 64 = b.address := tiled.previous
  have footer : b.address - 32 = p.address + p.size + 32 := by omega
  rw [footer]
  exact (readSize_returns (tiled.header_mapped (b := p) (by simp)).2).to
    (tiled.stored p (by simp)).footSize

/-- From that footer the header of the block before is found. -/
theorem Tiled.back (tiled : Tiled s (pre ++ [p] ++ b :: post)) :
    b.address - 32 - p.size - 32 = p.address := by
  have placeB : p.address + p.size + 64 = b.address := tiled.previous
  omega

/-- The block behind a block starts where that one ends. -/
theorem Tiled.next (tiled : Tiled s (pre ++ b :: n :: post)) :
    n.address = b.address + b.size + 64 := tiled.place.2.2.1

/-- `mergeBlocks` when both neighbours are free. -/
theorem mergeBoth_returns (tiled : Tiled s (pre ++ [p] ++ b.freed :: n :: post))
    (live : b.free = false) (prevFree : p.free = true) (foot : p.foot = true)
    (nextFree : n.free = true) :
    ∃ t new, Returns (mergeBoth b.address (b.address - 32) n.address) s () t ∧
      Merged s (pre ++ [p]) b (n :: post) t new := by
  have regroup : pre ++ [p] ++ b.freed :: n :: post = pre ++ ([p, b.freed] ++ [n]) ++ post := by simp
  have placeB : p.address + p.size + 64 = b.address := tiled.previous
  have placeN : n.address = b.address + b.size + 64 := tiled.next
  have headerB := tiled.header_mapped (b := b.freed) (by simp)
  have readsFooter := tiled.reads_previous
  have readsP := tiled.reads_size (b := p) (by simp)
  have readsB := tiled.reads_size (b := b.freed) (by simp)
  have readsN := tiled.reads_size (b := n) (by simp)
  have back := tiled.back
  have tiles := tiled.tiles
  have middle : Tile p.address ([p, b.freed] ++ [n]) (n.address + n.size + 64) := by
    simp [Block.extent_eq]
    omega
  rw [regroup] at tiled
  obtain ⟨bytes, head, delta, run, closed, sizes, flags, frame⟩ :=
    tiled.fuse middle [n.address, p.address, b.address]
      (show ([p.address, b.address] ++ [n.address]).Perm _ from List.perm_append_comm)
      (p.size + (n.size + b.size + 4 * 32)) (by omega)
  rw [prevFree] at closed
  have bounded : Coalesced (pre ++ [p]) → Coalesced (n :: post) → Coalesced pre ∧ Coalesced post ∧
      footBefore pre = false ∧ freeAfter post = false := by
    intro front back
    obtain ⟨coalescedPre, _, _, before, _⟩ := coalesced_iff.mp front
    obtain ⟨_, coalescedPost, _, _, after⟩ := coalesced_iff.mp (List.nil_append (n :: post) ▸ back)
    exact ⟨coalescedPre, coalescedPost, by simpa [prevFree] using before,
      by simpa [nextFree] using after⟩
  refine ⟨_, _, ?_, Merged.of_fuse
    (s.globals.statistics.update (-2) (-1) (4 * 32) (b.size + 4 * 32) (-(4 * 32))) tiles regroup middle (by simp) (by simp [*]) bounded
    (Or.inr nextFree) (by simp [foot]; omega) (by simp [foot, nextFree]; omega) closed
    (fun c member => (List.mem_cons.mp member).imp (congrArg Block.address) (sizes c)) flags frame ?_⟩
  · unfold mergeBoth
    apply Returns.bind readsFooter
    simp only [SOM]
    rw [b.freed_address] at back
    rw [back]
    refine Returns.bind readsP (Returns.bind readsN (Returns.bind readsB ?_))
    apply run
    apply Returns.bind (Returns.to (readSize_returns (by exact headerB.1)) (sizes b.freed (by simp)))
    exact Returns.bind updateStatistics_returns moveWilderness_returns
  · intro maps exact
    rw [exact]
    refine tally_update ?_ ?_ ?_ ?_ ?_ <;>
      simp [live, prevFree, nextFree, filling] <;> omega

/-- `mergeBlocks` when only the next block is free. -/
theorem mergeNext_returns (tiled : Tiled s (pre ++ b.freed :: n :: post)) (live : b.free = false)
    (nextFree : n.free = true) (before : footBefore pre = false) :
    ∃ t new, Returns (mergeNext b.address n.address) s () t ∧ Merged s pre b (n :: post) t new := by
  have regroup : pre ++ b.freed :: n :: post = pre ++ ([b.freed] ++ [n]) ++ post := by simp
  have placeN : n.address = b.address + b.size + 64 := tiled.next
  have headerB := tiled.header_mapped (b := b.freed) (by simp)
  have headerN := tiled.header_mapped (b := n) (by simp)
  have readsB := tiled.reads_size (b := b.freed) (by simp)
  have readsN := tiled.reads_size (b := n) (by simp)
  have tiles := tiled.tiles
  have middle : Tile b.address ([b.freed] ++ [n]) (n.address + n.size + 64) := by
    simp [Block.extent_eq]
    omega
  rw [regroup] at tiled
  obtain ⟨bytes, head, delta, run, closed, sizes, flags, frame⟩ :=
    tiled.fuse middle [n.address, b.address] (List.Perm.swap _ _ _)
      (b.size + (n.size + 2 * 32)) (by rw [b.freed_address]; omega)
  have bounded : Coalesced pre → Coalesced (n :: post) → Coalesced pre ∧ Coalesced post ∧
      footBefore pre = false ∧ freeAfter post = false := by
    intro coalescedPre back
    obtain ⟨_, coalescedPost, _, _, after⟩ := coalesced_iff.mp (List.nil_append (n :: post) ▸ back)
    exact ⟨coalescedPre, coalescedPost, before, by simpa [nextFree] using after⟩
  have sizeNow : size bytes b.address = b.size + (n.size + 2 * 32) := by
    refine (closed.stored (filling b.address (n.address + n.size + 64) true) (List.mem_append_right _ (List.mem_cons_self))).size.trans ?_
    simp only [filling]
    omega
  refine ⟨_, _, ?_, Merged.of_fuse
    (s.globals.statistics.update (-1) 0 (2 * 32) ((b.size + (n.size + 2 * 32) : Nat) - n.size) (-(2 * 32))) tiles regroup middle (by simp) (by simp [*]) bounded
    (Or.inr nextFree) (by simp [gainBefore_none before])
    (by simp [gainBefore_none before, nextFree]; omega) closed
    (fun c member => (List.mem_cons.mp member).imp (fun (same : c = b.freed) => by rw [same]; rfl) (sizes c)) flags frame ?_⟩
  · unfold mergeNext
    refine Returns.bind readsB (Returns.bind readsN ?_)
    apply run
    apply Returns.bind (Returns.to (readSize_returns (by exact headerB.1)) sizeNow)
    apply Returns.bind (Returns.to (readSize_returns (by exact headerN.1)) (sizes n (by simp)))
    exact Returns.bind updateStatistics_returns moveWilderness_returns
  · intro maps exact
    rw [exact]
    refine tally_update ?_ ?_ ?_ ?_ ?_ <;>
      simp [live, nextFree, filling] <;> omega

/-- `mergeBlocks` when only the previous block is free. -/
theorem mergePrev_returns (tiled : Tiled s (pre ++ [p] ++ b.freed :: post)) (live : b.free = false)
    (prevFree : p.free = true) (foot : p.foot = true) (after : freeAfter post = false) :
    ∃ t new, Returns (mergePrev b.address (b.address - 32)) s () t ∧
      Merged s (pre ++ [p]) b post t new := by
  have regroup : pre ++ [p] ++ b.freed :: post = pre ++ ([p] ++ [b.freed]) ++ post := by simp
  have placeB : p.address + p.size + 64 = b.address := tiled.previous
  have headerB := tiled.header_mapped (b := b.freed) (by simp)
  have readsFooter := tiled.reads_previous
  have readsP := tiled.reads_size (b := p) (by simp)
  have readsB := tiled.reads_size (b := b.freed) (by simp)
  have back := tiled.back
  have tiles := tiled.tiles
  have middle : Tile p.address ([p] ++ [b.freed]) (b.address + b.size + 64) := by
    simp [Block.extent_eq]
    omega
  rw [regroup] at tiled
  obtain ⟨bytes, head, delta, run, closed, sizes, flags, frame⟩ :=
    tiled.fuse middle [p.address, b.address] (List.Perm.refl _)
      (p.size + (b.size + 2 * 32)) (by omega)
  rw [prevFree] at closed
  have bounded : Coalesced (pre ++ [p]) → Coalesced post → Coalesced pre ∧ Coalesced post ∧
      footBefore pre = false ∧ freeAfter post = false := by
    intro front coalescedPost
    obtain ⟨coalescedPre, _, _, before, _⟩ := coalesced_iff.mp front
    exact ⟨coalescedPre, coalescedPost, by simpa [prevFree] using before, after⟩
  refine ⟨_, _, ?_, Merged.of_fuse
    (s.globals.statistics.update (-1) 0 (2 * 32) (b.size + 2 * 32) (-(2 * 32))) tiles regroup middle (by simp) (by simp [*]) bounded
    (Or.inl (by simpa using foot)) (by simp [foot]; omega)
    (by simp [foot, gainAfter_none after]; omega) closed
    (fun c member => (List.mem_cons.mp member).imp (congrArg Block.address) (sizes c)) flags frame ?_⟩
  · unfold mergePrev
    apply Returns.bind readsFooter
    simp only [SOM]
    rw [b.freed_address] at back
    rw [back]
    refine Returns.bind readsP (Returns.bind readsB ?_)
    apply run
    apply Returns.bind (Returns.to (readSize_returns (by exact headerB.1)) (sizes b.freed (by simp)))
    exact Returns.bind updateStatistics_returns moveWilderness_returns
  · intro maps exact
    rw [exact]
    refine tally_update ?_ ?_ ?_ ?_ ?_ <;>
      simp [live, prevFree, filling] <;> omega

/-- `mergeBlocks` when no neighbour is free. -/
theorem mergeNone_returns (tiled : Tiled s (pre ++ b.freed :: post)) (live : b.free = false)
    (before : footBefore pre = false) (after : freeAfter post = false) :
    ∃ t new, Returns (do let size ← readSize b.address; updateStatistics 0 1 0 size 0) s () t ∧
      Merged s pre b post t new := by
  obtain ⟨_, middle, _⟩ := tiled.place
  have same : filling b.address (b.address + b.size + 64) true = b.freed := by
    simp [filling, Block.freed]
    omega
  refine ⟨withStatistics s (s.globals.statistics.update 0 1 0 b.size 0), pre ++ b.freed :: post,
    Returns.bind (tiled.reads_size (b := b.freed) (by simp)) updateStatistics_returns, ?_, ?_, rfl,
    ?_, ?_, ?_, fun _ _ => ⟨rfl, rfl⟩, ?_, ?_, ?_, fun _ _ => rfl⟩
  · have fuses := Fuses.intro (b := b.freed) pre [b.freed] post _ _ middle (by simp)
      (by simp [Block.freed])
    simp only [List.append_assoc, List.cons_append, List.nil_append] at fuses
    rwa [b.freed_address, b.freed_size, same] at fuses
  · exact tiled.congr rfl
  · intro exact
    exact exact.trans (lastAddress_mark rfl)
  · intro maps exact
    simp only [withStatistics, exact]
    refine tally_update ?_ ?_ ?_ ?_ ?_ <;> simp [live, Block.freed] <;> omega
  · intro coalescedPre coalescedPost
    exact coalesced_iff.mpr ⟨coalescedPre, coalescedPost, rfl, Or.inl before, Or.inr after⟩
  · have alone : b.merged pre post = b.freed := by
      simp [Block.merged, Block.freed, gainBefore_none before, gainAfter_none after]
    rw [alone]
    simp
  · intro c member
    apply Or.inr
    rcases List.mem_append.mp member with inFront | member
    · exact (tiled.stored c (by simp [inFront])).size
    rcases List.mem_cons.mp member with rfl | inBack
    · exact (tiled.stored c.freed (by simp)).size
    · exact (tiled.stored c (by simp [inBack])).size
  · intro c member
    exact (tiled.stored c member).free

/-- `mergeBlocks` fuses the freed block with its free neighbours. Which of the
four cases applies is read from the footer before the block and the header
behind it; a footer never shows a block free that is not. -/
theorem mergeBlocks_returns (tiled : Tiled s (pre ++ b.freed :: post)) (live : b.free = false)
    (shown : Shown pre) :
    ∃ t new, Returns (mergeBlocks b.address) s () t ∧ Merged s pre b post t new := by
  have reads : ∀ {t : State},
      Returns (if freeAfter post ∧ footBefore pre then mergeBoth b.address
          (if pre = [] then 0 else b.address - 32)
          (if post = [] then 0 else b.address + b.size + 64)
        else if freeAfter post then mergeNext b.address
          (if post = [] then 0 else b.address + b.size + 64)
        else if footBefore pre then mergePrev b.address (if pre = [] then 0 else b.address - 32)
        else do
          let size ← readSize b.address
          updateStatistics 0 1 0 size 0) s () t →
      Returns (mergeBlocks b.address) s () t := by
    intro t run
    apply Returns.bind (previousFooter_returns (b := b.freed) tiled)
    apply Returns.bind (nextHeader_returns (b := b.freed) tiled)
    apply Returns.bind (previousFree_returns (b := b.freed) tiled)
    exact Returns.bind (nextFree_returns (b := b.freed) tiled) run
  have front : footBefore pre = true → ∃ more p, pre = more ++ [p] ∧ p.free = true ∧ p.foot = true := by
    intro seen
    rcases List.eq_nil_or_concat pre with rfl | ⟨more, p, rfl⟩
    · simp [footBefore] at seen
    · rw [List.concat_eq_append] at seen shown ⊢
      have foot : p.foot = true := by simpa using seen
      exact ⟨more, p, rfl, shown p (by simp) foot, foot⟩
  have back : freeAfter post = true → ∃ n more, post = n :: more ∧ n.free = true := by
    intro shown
    cases post with
    | nil => simp [freeAfter] at shown
    | cons n more => exact ⟨n, more, rfl, shown⟩
  cases after : freeAfter post <;> cases before : footBefore pre <;>
    simp only [after, before] at reads
  · obtain ⟨t, new, run, merged⟩ := mergeNone_returns tiled live before after
    exact ⟨t, new, reads (by simpa using run), merged⟩
  · obtain ⟨more, p, rfl, prevFree, foot⟩ := front before
    obtain ⟨t, new, run, merged⟩ := mergePrev_returns tiled live prevFree foot after
    exact ⟨t, new, reads (by simpa using run), merged⟩
  · obtain ⟨n, more, rfl, nextFree⟩ := back after
    have place : n.address = b.address + b.size + 64 := tiled.next
    obtain ⟨t, new, run, merged⟩ := mergeNext_returns tiled live nextFree before
    exact ⟨t, new, reads (by simpa [place] using run), merged⟩
  · obtain ⟨more, p, rfl, prevFree, foot⟩ := front before
    obtain ⟨n, rest, rfl, nextFree⟩ := back after
    have place : n.address = b.address + b.size + 64 := tiled.next
    obtain ⟨t, new, run, merged⟩ := mergeBoth_returns tiled live prevFree foot nextFree
    exact ⟨t, new, reads (by simpa [place] using run), merged⟩

theorem sfree_null : Returns (sfree 0) s () s := Returns.ifPos rfl Returns.pure

/-- `sfree` on a block in use that is smaller than the threshold. -/
theorem sfree_returns (tiled : Tiled s (pre ++ b :: post)) (live : b.free = false)
    (small : b.size < MMAP_THRESHOLD) (shown : Shown pre) :
    ∃ t new, Returns (sfree (b.address + 32)) s () t ∧ Merged s pre b post t new := by
  have header := tiled.header_mapped (b := b) (by simp)
  have stored := tiled.stored b (by simp)
  have marked := (tiled.markHeader true).markFooter true
  obtain ⟨t, new, run, merged⟩ := mergeBlocks_returns (b := b) marked live shown
  have sizeNow := (tiled.markHeader true).reads_size (b := { b with free := true }) (by simp)
  refine ⟨t, new, ?_, ⟨merged.fuses, merged.tiled, merged.rest, merged.wilderness, merged.counters,
    merged.coalesced, merged.alone, merged.block, merged.sizes, merged.flags,
    merged.frame.trans ?_⟩⟩
  · unfold sfree
    apply Returns.ifNeg (by omega)
    simp only [SOM, Nat.add_sub_cancel]
    apply Returns.bind ((readFree_returns header.1).to (stored.free.trans live))
    refine Returns.ifNeg (by simp) (Returns.bind (writeFree_returns header.1) ?_)
    refine Returns.bind sizeNow (Returns.ifPos small (Returns.bind (x := ()) ?_ run))
    rw [show b.address + 32 + b.size = b.address + b.size + 32 by omega]
    exact writeFree_returns (s := s.withBytes _) header.2
  · refine (setFree_outside.mono ?_).trans (setFree_outside.mono ?_) <;>
    · refine Set.compl_subset_compl.mpr fun x inside => ⟨b, by simp, ?_⟩
      simp only [mem_cells] at inside
      omega

/-- Freeing is a step of the heap. -/
theorem Merged.evolves {new : List Block} (merged : Merged s pre b post t new) :
    EvolvesExactly s (pre ++ b :: post) t new := by
  have rest := merged.rest
  have maps : t.maps = s.maps := by rw [rest]; rfl
  refine ⟨⟨merged.tiled, merged.wilderness, fun shown => merged.fuses.shown fun c listed => ?_,
    by rw [rest]; rfl, maps, by rw [rest]; exact Nat.le_refl _, by rw [rest]; exact id, ?_⟩,
    ?_, ?_, by rw [rest]; rfl⟩
  · rcases List.mem_append.mp listed with inFront | listed
    · exact shown c (by simp [inFront])
    rcases List.mem_cons.mp listed with rfl | inBack
    · exact fun _ => rfl
    · exact shown c (by simp [inBack])
  · refine merged.frame.mono (Set.compl_subset_compl.mpr fun x inside => Or.inl (Or.inl inside))
  · rw [maps]
    exact merged.counters s.maps
  · intro coalesced
    obtain ⟨inFront, inBack, _⟩ := coalesced_iff.mp coalesced
    exact merged.coalesced inFront inBack

/-- `sfree` on a block of the heap that it takes for a mapping, because it is
not smaller than the threshold: the header is marked, the footer is not, and a
range that is no mapping goes to `munmap`. -/
theorem sfree_stray (tiled : Tiled s (pre ++ b :: post)) (live : b.free = false)
    (large : MMAP_THRESHOLD ≤ b.size) (outside : ∀ region ∈ s.maps, region.1 ≠ b.address) :
    ∃ statistics, Returns (sfree (b.address + 32)) s ()
      { rebuilt s (setFree s.bytes b.address true) s.globals.blockList statistics with
        strayUnmaps := (b.address, b.size + 32) :: s.strayUnmaps } := by
  have header := tiled.header_mapped (b := b) (by simp)
  have stored := tiled.stored b (by simp)
  have sizeNow := (tiled.markHeader true).reads_size (b := { b with free := true }) (by simp)
  have fits : wrap (b.size + 32) = b.size + 32 := by
    have := tiled.within (b := b) (by simp)
    have := tiled.small
    exact wrap_eq (by omega)
  refine ⟨s.globals.statistics.update (-1) 0 (-b.size) 0 (-(2 * 32)), ?_⟩
  unfold sfree
  apply Returns.ifNeg (by omega)
  simp only [SOM, Nat.add_sub_cancel]
  apply Returns.bind ((readFree_returns header.1).to (stored.free.trans live))
  refine Returns.ifNeg (by simp) (Returns.bind (writeFree_returns header.1) ?_)
  apply Returns.bind sizeNow
  refine Returns.ifNeg (Nat.not_lt.mpr large) (Returns.bind updateStatistics_returns ?_)
  rw [fits]
  refine if_neg fun mapping => ?_
  exact outside _ mapping rfl

end OperatingSystems.Malloc3
