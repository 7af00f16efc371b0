import OperatingSystems.Malloc3.Predecessor

/-!
# What the blocks in use determine

In a coalesced heap every gap between blocks in use is one free block. So the
blocks in use and the bounds of the heap determine all blocks, and the blocks
determine the sequence of the list, the wilderness and the counters. Two ways to
leave the same blocks in use leave the same heap, up to the bytes inside
payloads.
-/

namespace OperatingSystems.Malloc3

open Bytes Process MallocMetadata Tiling

variable {s t : State} {old new blocks : List Block}

attribute [ext] Globals BlockList

/-- The blocks in use of a tiling are known by what they are, not by their order. -/
theorem inUse_eq {low high low' high' : Nat} (left : Tile low old high) (right : Tile low' new high')
    (same : ∀ b, b ∈ inUse old ↔ b ∈ inUse new) : inUse old = inUse new := by
  have distinct : ∀ {low high : Nat} {xs : List Block}, Tile low xs high → (inUse xs).Nodup :=
    fun tiles => ((tiles.nodup Block.extent_pos).of_map).filter _
  refine List.Perm.eq_of_pairwise
    (fun b c _ _ before after => ?_) (left.pairwise.filter _) (right.pairwise.filter _)
    ((List.perm_ext_iff_of_nodup (distinct left) (distinct right)).mpr same)
  have := b.extent_pos
  omega

/-- A coalesced heap is determined by its bounds and its blocks in use. -/
theorem Coalesced.determined {low high : Nat} (coalesced : Coalesced old) (coalesced' : Coalesced new)
    (left : Tile low old high) (right : Tile low new high) (same : inUse old = inUse new) :
    old = new := by
  refine left.determined Block.extent_pos Block.free
    (fun x inOld y inNew freeX freeY address extent => ?_) right coalesced.apart coalesced'.apart same
  have footX := coalesced.agree x inOld
  have footY := coalesced'.agree y inNew
  rw [Block.extent_eq, Block.extent_eq] at extent
  obtain ⟨_, _, _, _⟩ := x
  obtain ⟨_, _, _, _⟩ := y
  simp only [Block.mk.injEq] at *
  subst freeX freeY footX footY
  exact ⟨address, by omega, rfl, rfl⟩

/-- A block that finds its place among the blocks in use lies beside a free block or
inside it. -/
theorem Coalesced.room {pre post : List Block} {f c : Block} {low high top : Nat}
    (coalesced : Coalesced (pre ++ f :: post)) (free : f.free = true)
    (tiles : Tile low (pre ++ f :: post) high) (outer : Tile low new top)
    (used : ∀ b ∈ pre ++ f :: post, b.free = false → b ∈ new ∧ b ≠ c)
    (closed : post = [] → top ≤ high) (member : c ∈ new) :
    c.address + c.extent ≤ f.address ∨ f.address + f.extent ≤ c.address ∨
      f.address ≤ c.address ∧ c.address + c.extent ≤ f.address + f.extent := by
  obtain ⟨front, _, _, before, after⟩ := coalesced_iff.mp coalesced
  refine tiles.enclosed outer (fun p isLast => ?_) (fun n isHead => ?_) closed member
  · obtain ⟨more, rfl⟩ := List.getLast?_eq_some_iff.mp isLast
    rw [footBefore_concat, front.agree p (by simp)] at before
    exact used p (by simp) (before.resolve_right (by simp [free]))
  · obtain ⟨more, rfl⟩ := List.head?_eq_some_iff.mp isHead
    exact used n (by simp) (after.resolve_left (by simp [free]))

/-- Two states with the same heap: the same blocks with the same flags in headers and
footers, the same sequence in the list, and the same globals and break. -/
structure Alike (s t : State) (blocks : List Block) : Prop where
  left : WellFormed s blocks
  right : WellFormed t blocks
  list : ∃ nodes, Linked s nodes ∧ Linked t nodes
  globals : t.globals = s.globals
  brk : t.brk = s.brk
  maps : t.maps = s.maps

/-- Well-formed heaps of the same blocks are alike. -/
theorem WellFormed.alike (left : WellFormed s blocks) (right : WellFormed t blocks)
    (origin : t.globals.sbrkStart = s.globals.sbrkStart) (maps : t.maps = s.maps) :
    Alike s t blocks := by
  obtain ⟨nodes, perm, linked, sorted⟩ := left.listed
  obtain ⟨others, perm', linked', sorted'⟩ := right.listed
  have sizes : ∀ n ∈ others, size t.bytes n = size s.bytes n := by
    intro n member
    obtain ⟨b, known, rfl⟩ := List.mem_map.mp (perm'.mem_iff.mp member)
    exact (right.stored b known).size.trans (left.stored b known).size.symm
  have ordered : others.Pairwise (Before s.bytes) := by
    refine sorted'.imp_of_mem fun {x y} inX inY before => ?_
    unfold Before at before ⊢
    rwa [sizes x inX, sizes y inY] at before
  obtain rfl : nodes = others := List.Perm.eq_of_pairwise
    (fun x y _ _ before after => absurd after before.asymm) sorted ordered (perm.trans perm'.symm)
  have heads : t.globals.blockList.head = s.globals.blockList.head :=
    linked'.chain.head.trans linked.chain.head.symm
  refine ⟨left, right, ⟨nodes, linked, linked'⟩, ?_, ?_, maps⟩
  · have counters := right.counters
    have counted := right.counted
    have wilderness := right.wilderness
    rw [maps, ← left.counters] at counters
    rw [← left.counted] at counted
    rw [← left.wilderness] at wilderness
    exact Globals.ext counters origin (BlockList.ext heads wilderness counted)
  · have tiles := right.tiles
    rw [origin] at tiles
    exact tiles.reaches left.tiles

end OperatingSystems.Malloc3
