import OperatingSystems.Malloc3.Canonical

/-!
# Freeing in any order

What a sequence of calls of `sfree` comes to depends only on which blocks it
frees. A block freed before may be passed again: its header, which may be stale
by now, lies in a free block, where no later merge writes, and still says that
the block is free.
-/

namespace OperatingSystems.Malloc3

open Bytes Process MallocMetadata Tiling Runs

variable {s t u : State} {pre post old new blocks : List Block} {b c m : Block} {freed : Set Block}
  {a e : Nat}

/-- `sfree` on each of these pointers, one after the other. -/
def sfreeAll : List Nat → Alloc Unit
  | [] => pure ()
  | p :: more => do
    sfree p
    sfreeAll more

/-- The pointer to the payload of a block. -/
def Block.pointer (b : Block) : Nat := b.address + SOM

/-- A live block of the heap that `sfree` does not take for a mapping. -/
structure Freeable (blocks : List Block) (b : Block) : Prop where
  member : b ∈ blocks
  live : b.free = false
  small : b.size < MMAP_THRESHOLD

instance (blocks : List Block) (b : Block) : Decidable (Freeable blocks b) :=
  decidable_of_iff (b ∈ blocks ∧ b.free = false ∧ b.size < MMAP_THRESHOLD)
    ⟨fun ⟨member, live, small⟩ => ⟨member, live, small⟩,
      fun freeable => ⟨freeable.member, freeable.live, freeable.small⟩⟩

/-- The header at `a` is that of a free block, or lies in its payload. -/
structure Covers (m : Block) (a : Nat) : Prop where
  free : m.free = true
  place : a = m.address ∨ m.address + 32 ≤ a ∧ a + 32 ≤ m.address + 32 + m.size

/-- Freeing a block keeps the heap well formed. -/
theorem Merged.well_formed (merged : Merged s pre b post t new)
    (formed : WellFormed s (pre ++ b :: post)) : WellFormed t new := by
  obtain ⟨front, back, _⟩ := coalesced_iff.mp formed.whole
  have maps : t.maps = s.maps := by rw [merged.rest]; rfl
  exact merged.tiled.well_formed (merged.coalesced front back) (merged.wilderness formed.wilderness)
    (maps ▸ merged.counters s.maps formed.counters)

/-- What a free block covers is covered after a fusion. -/
theorem Fuses.covers (fuses : Fuses b old new) (member : m ∈ old) (covers : Covers m a) :
    ∃ c ∈ new, Covers c a := by
  obtain ⟨front, mid, back, low, e, tiles, _, _⟩ := fuses
  rcases List.mem_append.mp member with inFront | inBack
  swap
  · exact ⟨m, by simp [inBack], covers⟩
  rcases List.mem_append.mp inFront with inFront | inMid
  · exact ⟨m, by simp [inFront], covers⟩
  refine ⟨filling low e true, by simp, rfl, ?_⟩
  obtain ⟨first, rest, rfl⟩ := List.exists_cons_of_ne_nil (List.ne_nil_of_mem inMid)
  have start : first.address = low := tiles.1
  have inside := tiles.within inMid
  have place := covers.place
  rw [m.extent_eq] at inside
  simp only [filling]
  rcases List.mem_cons.mp inMid with rfl | later
  · omega
  · have behind := (tiles.2.within later).1
    rw [first.extent_eq] at behind
    omega

/-- `sfree` looks only at the flag of a block that is free already. -/
theorem sfree_freed (mapped : s.Mapped a 32) (free : isFree s.bytes a = true) :
    Returns (sfree (a + SOM)) s () s := by
  unfold sfree
  apply Returns.ifNeg (by simp only [SOM]; omega)
  rw [Nat.add_sub_cancel]
  exact Returns.bind ((readFree_returns mapped).to free) (Returns.ifPos rfl Returns.pure)

/-- The blocks `freed` of the heap `blocks` have been freed, which has become `now`. -/
structure Freeing (s : State) (blocks : List Block) (freed : Set Block) (t : State)
    (now : List Block) : Prop where
  formed : WellFormed t now
  grounded : Grounded t
  used : ∀ b, b ∈ inUse now ↔ b ∈ inUse blocks ∧ b ∉ freed
  stale : ∀ b ∈ freed, isFree t.bytes b.address = true ∧ ∃ m ∈ now, Covers m b.address
  origin : t.globals.sbrkStart = s.globals.sbrkStart
  brk : t.brk = s.brk
  maps : t.maps = s.maps

/-- At first nothing is freed. -/
theorem Freeing.start (formed : WellFormed s blocks) (grounded : Grounded s) :
    Freeing s blocks ∅ s blocks where
  formed := formed
  grounded := grounded
  used := by simp
  stale := by simp
  origin := rfl
  brk := rfl
  maps := rfl

/-- Freeing one more block that is in use. -/
theorem Freeing.add (freeing : Freeing s blocks freed t (pre ++ b :: post))
    (merged : Merged t pre b post u new) (live : b.free = false) :
    Freeing s blocks (insert b freed) u new where
  formed := merged.well_formed freeing.formed
  grounded := merged.tiled.toGrounded
  used := by
    have tiled := freeing.formed.tiled freeing.grounded
    have distinct := (tiled.tiles.nodup Block.extent_pos).of_map
    have absent := (List.nodup_cons.mp (List.nodup_middle.mp distinct)).1
    have others : ∀ c, c ∈ inUse new ↔ c ∈ inUse (pre ++ b :: post) ∧ c ≠ b := by
      intro c
      rw [merged.fuses.inUse]
      simp only [inUse_append, inUse_cons, Block.freed_free, live, if_true, Bool.false_eq_true,
        if_false, List.mem_append, List.mem_cons]
      constructor
      · intro either
        refine ⟨either.imp id Or.inr, ?_⟩
        rintro rfl
        exact absent (List.mem_append.mpr (either.imp (fun h => (mem_inUse.mp h).1)
          fun h => (mem_inUse.mp h).1))
      · rintro ⟨before | same | after, other⟩
        · exact Or.inl before
        · exact absurd same other
        · exact Or.inr after
    intro c
    rw [others, freeing.used, Set.mem_insert_iff, not_or, and_assoc, and_comm (a := c ≠ b)]
  stale := by
    have tiled := freeing.formed.tiled freeing.grounded
    rintro c (rfl | before)
    · exact ⟨merged.flags c.freed (by simp), merged.fuses.covers (m := c.freed) (by simp)
        ⟨rfl, Or.inl rfl⟩⟩
    obtain ⟨flag, m, member, covers⟩ := freeing.stale c before
    have stays : m ∈ pre ++ b.freed :: post := by
      rcases List.mem_append.mp member with inFront | member
      · simp [inFront]
      rcases List.mem_cons.mp member with rfl | inBack
      · exact absurd covers.free (by simp [live])
      · simp [inBack]
    refine ⟨?_, merged.fuses.covers stays covers⟩
    rcases covers.place with same | ⟨low, high⟩
    · rw [same, merged.flags m stays]
      exact covers.free
    · refine (isFree_frame merged.frame fun x above below => ?_).trans flag
      exact payload_clear tiled.tiles member (by omega) (by omega)
  origin := by
    rw [merged.rest]
    exact freeing.origin
  brk := by
    rw [merged.rest]
    exact freeing.brk
  maps := by
    rw [merged.rest]
    exact freeing.maps

/-- One call on a block of the heap, freed before or not. -/
theorem Freeing.step (freeing : Freeing s blocks freed t old) (freeable : Freeable blocks b) :
    ∃ u new, Returns (sfree b.pointer) t () u ∧ Freeing s blocks (insert b freed) u new ∧
      (b ∈ freed → u = t) := by
  have tiled := freeing.formed.tiled freeing.grounded
  by_cases before : b ∈ freed
  · obtain ⟨flag, m, member, covers⟩ := freeing.stale b before
    have mapped : t.Mapped b.address 32 := by
      have place := tiled.tiles.within member
      have inside := covers.place
      rw [m.extent_eq] at place
      exact Machine.mapped_heap (by omega) (by omega)
    refine ⟨t, old, sfree_freed mapped flag, ?_, fun _ => rfl⟩
    rwa [Set.insert_eq_of_mem before]
  · have inHeap := mem_inUse.mp
      ((freeing.used b).mpr ⟨mem_inUse.mpr ⟨freeable.member, freeable.live⟩, before⟩)
    obtain ⟨pre, post, rfl⟩ := List.append_of_mem inHeap.1
    obtain ⟨u, new, run, merged⟩ := sfree_returns tiled freeable.live freeable.small
      fun c listed foot => (freeing.formed.agree c (by simp [listed])) ▸ foot
    exact ⟨u, new, run, freeing.add merged freeable.live, fun again => absurd again before⟩

/-- Any sequence of calls on blocks of the heap. -/
theorem Freeing.run {order : List Block} (freeing : Freeing s blocks freed t old)
    (freeable : ∀ b ∈ order, Freeable blocks b) :
    ∃ u new, Returns (sfreeAll (order.map Block.pointer)) t () u ∧
      Freeing s blocks (freed ∪ {b | b ∈ order}) u new := by
  induction order generalizing t old freed with
  | nil => exact ⟨t, old, Returns.pure, by simpa using freeing⟩
  | cons b order inductionHypothesis =>
    obtain ⟨u, mid, first, after, _⟩ := freeing.step (freeable b (by simp))
    obtain ⟨v, new, rest, done⟩ := inductionHypothesis after fun c member => freeable c (by simp [member])
    refine ⟨v, new, Returns.bind first rest, ?_⟩
    have same : insert b freed ∪ {c | c ∈ order} = freed ∪ {c | c ∈ b :: order} := by
      ext c
      simp only [Set.mem_union, Set.mem_insert_iff, Set.mem_ofPred_eq, List.mem_cons]
      tauto
    rwa [← same]

/-- The blocks freed determine the heap that is left. -/
theorem Freeing.alike (left : Freeing s blocks freed t old) (right : Freeing s blocks freed u new) :
    old = new ∧ Alike t u new := by
  have tiles := left.formed.tiles
  have tiles' := right.formed.tiles
  rw [left.origin, left.brk] at tiles
  rw [right.origin, right.brk] at tiles'
  have used : inUse old = inUse new :=
    inUse_eq tiles tiles' fun b => (left.used b).trans (right.used b).symm
  obtain rfl := left.formed.whole.determined right.formed.whole tiles tiles' used
  exact ⟨rfl, left.formed.alike right.formed (right.origin.trans left.origin.symm)
    (right.maps.trans left.maps.symm)⟩

/-- Freeing the same blocks in two orders leaves the same heap. -/
theorem sfreeAll_order (formed : WellFormed s blocks) (grounded : Grounded s)
    (left right : List Block) (freeable : ∀ b ∈ left, Freeable blocks b)
    (same : ∀ b, b ∈ left ↔ b ∈ right) :
    ∃ t u new, Returns (sfreeAll (left.map Block.pointer)) s () t ∧
      Returns (sfreeAll (right.map Block.pointer)) s () u ∧ Alike t u new := by
  have start := Freeing.start formed grounded
  obtain ⟨t, old, first, freed⟩ := start.run freeable
  obtain ⟨u, new, second, freed'⟩ := start.run fun b member => freeable b ((same b).mpr member)
  have sets : {b | b ∈ left} = {b | b ∈ right} := Set.ext same
  rw [sets] at freed
  exact ⟨t, u, new, first, second, (freed.alike freed').2⟩

/-- Three of four blocks, freed from the left and from the middle. -/
theorem sfreeAll_order_sample : ∃ sys t u new,
    run (pageLaunch (List.replicate 4 (.grant 0 fun _ => 1)))
      [.smalloc 16, .smalloc 24, .smalloc 8, .smalloc 40] = .ok sys ∧
    Returns (sfreeAll [4128, 4208, 4296]) sys.state () t ∧
    Returns (sfreeAll [4208, 4296, 4128]) sys.state () u ∧ Alike t u new := by
  obtain ⟨sys, reached, formed, grounded, _⟩ := modest_test
    (pageLaunch (List.replicate 4 (.grant 0 fun _ => 1)))
    [.smalloc 16, .smalloc 24, .smalloc 8, .smalloc 40]
    [⟨4096, 16, false, false⟩, ⟨4176, 24, false, false⟩, ⟨4264, 8, false, false⟩,
      ⟨4336, 40, false, false⟩]
    (fun _ => true) (by decide) (by decide +kernel) (by decide +kernel)
  obtain ⟨t, u, new, first, second, alike⟩ := sfreeAll_order formed grounded
    [⟨4096, 16, false, false⟩, ⟨4176, 24, false, false⟩, ⟨4264, 8, false, false⟩]
    [⟨4176, 24, false, false⟩, ⟨4264, 8, false, false⟩, ⟨4096, 16, false, false⟩]
    (by decide) fun b => List.Perm.mem_iff (by decide)
  exact ⟨sys, t, u, new, reached, first, second, alike⟩

/-- Freeing a block once more, whatever was freed in between, changes nothing. -/
theorem sfree_again (formed : WellFormed s blocks) (grounded : Grounded s) (b : Block)
    (order : List Block) (freeable : Freeable blocks b) (others : ∀ c ∈ order, Freeable blocks c) :
    ∃ t new, Returns (sfreeAll ((b :: order).map Block.pointer)) s () t ∧ WellFormed t new ∧
      Returns (sfree b.pointer) t () t := by
  obtain ⟨t, new, run, freed⟩ := (Freeing.start formed grounded).run
    (show ∀ c ∈ b :: order, Freeable blocks c from fun c member => by
      rcases List.mem_cons.mp member with rfl | member
      · exact freeable
      · exact others c member)
  obtain ⟨u, _, again, _, kept⟩ := freed.step freeable
  obtain rfl := kept (by simp)
  exact ⟨u, new, run, freed.formed, again⟩

/-- A block that was absorbed by the one before it, and one that was freed twice. -/
theorem sfree_again_sample : ∃ sys t new,
    run (pageLaunch (List.replicate 4 (.grant 0 fun _ => 1)))
      [.smalloc 16, .smalloc 24, .smalloc 8, .smalloc 40] = .ok sys ∧
    Returns (sfreeAll [4208, 4128, 4208, 4296]) sys.state () t ∧ WellFormed t new ∧
    Returns (sfree 4208) t () t := by
  obtain ⟨sys, reached, formed, grounded, _⟩ := modest_test
    (pageLaunch (List.replicate 4 (.grant 0 fun _ => 1)))
    [.smalloc 16, .smalloc 24, .smalloc 8, .smalloc 40]
    [⟨4096, 16, false, false⟩, ⟨4176, 24, false, false⟩, ⟨4264, 8, false, false⟩,
      ⟨4336, 40, false, false⟩]
    (fun _ => true) (by decide) (by decide +kernel) (by decide +kernel)
  obtain ⟨t, new, freed, after, again⟩ := sfree_again formed grounded
    ⟨4176, 24, false, false⟩
    [⟨4096, 16, false, false⟩, ⟨4176, 24, false, false⟩, ⟨4264, 8, false, false⟩]
    (by decide) (by decide)
  exact ⟨sys, t, new, reached, freed, after, again⟩

end OperatingSystems.Malloc3
