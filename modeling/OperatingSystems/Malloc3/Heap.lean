import OperatingSystems.Malloc3.BlockList
import OperatingSystems.Tiling

/-!
# The tiled heap

The heap is a row of blocks, each a header, a payload and a footer. `Tiled`
says that these blocks tile the heap and that the block list holds exactly
their headers, in order.

An operation breaks this for a while: it changes sizes of linked nodes, takes
blocks off the list and puts others on. `Opened` is what holds meanwhile. One
interval is under construction; its old headers leave the list one by one and
its new ones enter it, while every block outside keeps its record. Each list
function and each write inside the interval has one rule, and closing the
interval around new blocks gives a tiled heap again.
-/

namespace OperatingSystems.Malloc3

open Bytes Process MallocMetadata DoublyLinked Tiling

/-- A block of the heap. The two flags are those of its header and its footer. -/
structure Block where
  address : Nat
  size : Nat
  free : Bool
  foot : Bool
deriving DecidableEq, Repr

/-- Header, payload and footer. -/
def Block.extent (b : Block) : Nat := b.size + 64

theorem Block.extent_eq (b : Block) : b.extent = b.size + 64 := rfl

theorem Block.extent_pos (b : Block) : 0 < b.extent := by
  rw [b.extent_eq]
  omega

/-- The blocks tile the interval. -/
abbrev Tile (low : Nat) (blocks : List Block) (high : Nat) : Prop :=
  Tiles Block.address Block.extent low blocks high

/-- Header and footer of the block are in the bytes. -/
structure Stored (bytes : Memory) (b : Block) : Prop where
  size : size bytes b.address = b.size
  free : isFree bytes b.address = b.free
  footSize : MallocMetadata.size bytes (b.address + b.size + 32) = b.size
  foot : isFree bytes (b.address + b.size + 32) = b.foot

/-- A block stays stored when its two records keep their sizes and flags. -/
theorem Stored.frame {left right : Memory} {changed : Set Nat} {b : Block}
    (stored : Stored right b) (frame : Set.EqOn left right changedᶜ)
    (header : ∀ x, b.address ≤ x → x < b.address + 16 → x ∉ changed)
    (footer : ∀ x, b.address + b.size + 32 ≤ x → x < b.address + b.size + 48 → x ∉ changed) :
    Stored left b where
  size := (size_frame frame fun x low high => header x low (by omega)).trans stored.size
  free := (isFree_frame frame fun x low high => header x (by omega) (by omega)).trans stored.free
  footSize := (size_frame frame fun x low high => footer x low (by omega)).trans stored.footSize
  foot := (isFree_frame frame fun x low high => footer x (by omega) (by omega)).trans stored.foot

/-- The heap starts at a proper aligned address, which the allocator knows. -/
structure Grounded (s : State) : Prop where
  proper : 0 < s.heapStart
  aligned : s.heapStart % 8 = 0
  origin : s.globals.sbrkStart = s.heapStart
  small : s.brk < 2 ^ 64 - 1

/-- The heap consists of these blocks, and the block list of their headers in
the order by size and address. -/
structure Tiled (s : State) (blocks : List Block) : Prop extends Grounded s where
  tiles : Tile s.heapStart blocks s.brk
  stored : ∀ b ∈ blocks, Stored s.bytes b
  listed : ∃ nodes, nodes.Perm (blocks.map Block.address) ∧ Linked s nodes ∧
    nodes.Pairwise (Before s.bytes)
  counted : s.globals.blockList.size = blocks.length

/-- Every block has room for two records, so that the size of the list is an `int`. -/
theorem Tiled.size_lt {s : State} {blocks : List Block} (tiled : Tiled s blocks)
    (room : s.brk < s.heapStart + 2 ^ 37) :
    0 ≤ s.globals.blockList.size ∧ s.globals.blockList.size < 2 ^ 31 := by
  have most : blocks.length * 64 + s.heapStart ≤ s.brk :=
    tiled.tiles.length_le fun b _ => Nat.le_add_left 64 b.size
  rw [tiled.counted]
  omega

/-- The interval from `a` to `e` is under construction between the blocks `pre`
and `post`. The headers `stale` are still listed, wherever their sizes put
them; the headers `fresh` are listed already, in order. -/
structure Opened (s : State) (pre post : List Block) (a e : Nat) (stale fresh : List Nat) : Prop
    extends Grounded s where
  below : Tile s.heapStart pre a
  above : Tile e post s.brk
  ordered : a ≤ e
  stored : ∀ b ∈ pre ++ post, Stored s.bytes b
  within : ∀ n ∈ stale ++ fresh, a ≤ n ∧ n + 32 ≤ e
  listed : ∃ nodes, nodes.Perm (stale ++ fresh ++ (pre ++ post).map Block.address) ∧
    Linked s nodes ∧ (nodes.filter fun n => n ∉ stale).Pairwise (Before s.bytes)
  counted : s.globals.blockList.size = stale.length + fresh.length + (pre ++ post).length

variable {s t : State} {pre mid post new : List Block} {a e n : Nat} {stale fresh : List Nat}

/-- A cell under construction is accessible. -/
theorem Opened.mapped (opened : Opened s pre post a e stale fresh) {x k : Nat} (low : a ≤ x)
    (high : x + k ≤ e) : s.Mapped x k := by
  have := opened.below.le
  have := opened.above.le
  exact Machine.mapped_heap (by omega) (by omega)

/-- The blocks lie in the heap. -/
theorem Tiled.within {blocks : List Block} (tiled : Tiled s blocks) {b : Block} (member : b ∈ blocks) :
    s.heapStart ≤ b.address ∧ b.address + b.size + 64 ≤ s.brk := by
  have := tiled.tiles.within member
  rwa [b.extent_eq, ← Nat.add_assoc] at this

/-- A block that is not under construction lies below or above. -/
theorem Opened.beside (opened : Opened s pre post a e stale fresh) {b : Block}
    (member : b ∈ pre ++ post) :
    s.heapStart ≤ b.address ∧ b.address + b.size + 64 ≤ s.brk ∧
      (b.address + b.size + 64 ≤ a ∨ e ≤ b.address) := by
  have := opened.below.le
  have := opened.above.le
  have := opened.ordered
  rcases List.mem_append.mp member with before | after
  · have := opened.below.within before
    rw [b.extent_eq] at this
    omega
  · have := opened.above.within after
    rw [b.extent_eq] at this
    omega

/-- Two blocks that are not under construction do not overlap. -/
theorem Opened.disjoint (opened : Opened s pre post a e stale fresh) {b c : Block}
    (left : b ∈ pre ++ post) (right : c ∈ pre ++ post) (distinct : b ≠ c) :
    b.address + b.size + 64 ≤ c.address ∨ c.address + c.size + 64 ≤ b.address := by
  have ordered := opened.ordered
  rcases List.mem_append.mp left with leftBefore | leftAfter <;>
    rcases List.mem_append.mp right with rightBefore | rightAfter
  · simpa only [Block.extent_eq, Nat.add_assoc] using
      opened.below.disjoint leftBefore rightBefore distinct
  · have first := opened.below.within leftBefore
    have second := opened.above.within rightAfter
    rw [Block.extent_eq] at first second
    omega
  · have first := opened.above.within leftAfter
    have second := opened.below.within rightBefore
    rw [Block.extent_eq] at first second
    omega
  · simpa only [Block.extent_eq, Nat.add_assoc] using
      opened.above.disjoint leftAfter rightAfter distinct

/-- Every listed header lies under construction or is that of another block. -/
theorem Opened.node (opened : Opened s pre post a e stale fresh)
    (member : n ∈ stale ++ fresh ++ (pre ++ post).map Block.address) :
    (n ∈ stale ++ fresh ∧ a ≤ n ∧ n + 32 ≤ e) ∨ ∃ b ∈ pre ++ post, b.address = n := by
  rcases List.mem_append.mp member with inside | outside
  · exact Or.inl ⟨inside, opened.within n inside⟩
  · exact Or.inr (List.mem_map.mp outside)

/-- A change of links leaves the blocks outside stored. -/
theorem Opened.stored_links (opened : Opened s pre post a e stale fresh) {bytes : Memory}
    {nodes : List Nat} (frame : Set.EqOn bytes s.bytes (linkCells nodes)ᶜ)
    (known : ∀ n ∈ nodes, (a ≤ n ∧ n + 32 ≤ e) ∨ ∃ b ∈ pre ++ post, b.address = n) :
    ∀ b ∈ pre ++ post, Stored bytes b := by
  intro b member
  have place := opened.beside member
  refine (opened.stored b member).frame frame ?_ ?_ <;>
  · rintro x low high ⟨n, listed, inside⟩
    rcases known n listed with within | ⟨c, other, rfl⟩
    · omega
    · by_cases same : b = c
      · subst same
        omega
      · have := opened.disjoint member other same
        omega

/-- Inside the interval only the links of its own headers change. -/
theorem Opened.inside (opened : Opened s pre post a e stale fresh) {left right : Memory}
    {nodes : List Nat}
    (frame : Set.EqOn left right (linkCells (nodes ++ (pre ++ post).map Block.address))ᶜ) {x : Nat}
    (low : a ≤ x) (high : x < e) (clear : x ∉ linkCells nodes) : left x = right x := by
  apply frame
  rintro ⟨n, listed, inside⟩
  rcases List.mem_append.mp listed with own | outside
  · exact clear ⟨n, own, inside⟩
  · obtain ⟨b, member, rfl⟩ := List.mem_map.mp outside
    have := opened.beside member
    omega

/-- Open an interval of a tiled heap: the headers of its blocks become stale. -/
theorem Tiled.opened (tiled : Tiled s (pre ++ mid ++ post)) (below : Tile s.heapStart pre a)
    (middle : Tile a mid e) (above : Tile e post s.brk) :
    Opened s pre post a e (mid.map Block.address) [] := by
  obtain ⟨nodes, perm, linked, sorted⟩ := tiled.listed
  refine ⟨tiled.toGrounded, below, above, middle.le, ?_, ?_, ⟨nodes, ?_, linked, sorted.filter _⟩, ?_⟩
  · intro b member
    apply tiled.stored b
    rcases List.mem_append.mp member with before | after <;> simp [*]
  · intro n member
    obtain ⟨b, inside, rfl⟩ := List.mem_map.mp (by simpa using member)
    have := middle.within inside
    rw [b.extent_eq] at this
    omega
  · apply perm.trans
    simp only [List.map_append, List.append_nil, ← List.append_assoc]
    exact List.perm_append_comm.append_right _
  · rw [tiled.counted]
    simp only [List.length_append, List.length_map, List.length_nil]
    omega

/-- Close the interval around new blocks whose headers are listed. -/
theorem Opened.close (opened : Opened s pre post a e [] fresh) (tiles : Tile a new e)
    (stored : ∀ b ∈ new, Stored s.bytes b) (listed : fresh.Perm (new.map Block.address)) :
    Tiled s (pre ++ new ++ post) := by
  obtain ⟨nodes, perm, linked, sorted⟩ := opened.listed
  refine ⟨opened.toGrounded, ?_, ?_, ⟨nodes, ?_, linked, by simpa using sorted⟩, ?_⟩
  · exact tiles_append.mpr ⟨e, tiles_append.mpr ⟨a, opened.below, tiles⟩, opened.above⟩
  · intro b member
    rcases List.mem_append.mp member with front | after
    · rcases List.mem_append.mp front with before | inside
      · exact opened.stored b (List.mem_append_left _ before)
      · exact stored b inside
    · exact opened.stored b (List.mem_append_right _ after)
  · apply perm.trans
    simp only [List.nil_append, List.map_append, ← List.append_assoc]
    exact ((listed.append_right _).trans List.perm_append_comm).append_right _
  · rw [opened.counted]
    have := listed.length_eq
    simp only [List.length_append, List.length_map, List.length_nil] at this ⊢
    omega

/-- The header of a block that is not under construction lies apart from every
record inside the interval. -/
theorem Opened.apart (opened : Opened s pre post a e stale fresh) {x : Nat} (low : a ≤ x)
    (high : x + 32 ≤ e) (member : n ∈ (pre ++ post).map Block.address) : Apart x n := by
  obtain ⟨b, outside, rfl⟩ := List.mem_map.mp member
  have := opened.beside outside
  unfold Apart
  omega

/-- `removeMetadata` takes a stale header off the list. -/
theorem Opened.remove (opened : Opened s pre post a e stale fresh) (member : n ∈ stale) :
    ∃ bytes head, Returns (removeMetadata n) s () (relink s bytes head (-1)) ∧
      Opened (relink s bytes head (-1)) pre post a e (stale.erase n) fresh ∧
      Set.EqOn bytes s.bytes
        (linkCells (stale.erase n ++ fresh ++ (pre ++ post).map Block.address))ᶜ := by
  obtain ⟨nodes, perm, linked, sorted⟩ := opened.listed
  have listed : n ∈ nodes := perm.mem_iff.mpr (by simp [member])
  obtain ⟨bytes, head, run, rest, frame⟩ := removeMetadata_returns linked listed
  have permRest : (nodes.erase n).Perm
      (stale.erase n ++ fresh ++ (pre ++ post).map Block.address) := by
    refine (perm.erase n).trans ?_
    rw [List.append_assoc, List.erase_append_left _ member, List.append_assoc]
  have distinct : nodes.Nodup := linked.chain.distinct
  have distinctStale : stale.Nodup := by
    have := perm.nodup_iff.mp distinct
    rw [List.append_assoc] at this
    exact (List.nodup_append.mp this).1
  have same : (nodes.erase n).filter (fun m => m ∉ stale.erase n) =
      nodes.filter fun m => m ∉ stale := by
    rw [distinct.erase_eq_filter, List.filter_filter]
    refine List.filter_congr fun m _ => ?_
    have := distinctStale.mem_erase_iff (a := m) (b := n)
    by_cases here : m = n
    · simp [here, member]
    · simp [this, here]
  have frame' : Set.EqOn bytes s.bytes
      (linkCells (stale.erase n ++ fresh ++ (pre ++ post).map Block.address))ᶜ :=
    frame.mono (Set.compl_subset_compl.mpr (linkCells_mono fun m => permRest.mem_iff.mp))
  refine ⟨bytes, head, run, ?_, frame'⟩
  refine ⟨⟨opened.proper, opened.aligned, opened.origin, opened.small⟩, opened.below, opened.above,
    opened.ordered, ?_, ?_, ⟨_, permRest, rest, ?_⟩, ?_⟩
  · refine opened.stored_links frame' fun m inRest => ?_
    refine (opened.node ?_).imp And.right id
    simp only [List.mem_append] at inRest ⊢
    exact inRest.imp_left (Or.imp_left List.mem_of_mem_erase)
  · intro m inRest
    apply opened.within m
    simp only [List.mem_append] at inRest ⊢
    exact inRest.imp_left List.mem_of_mem_erase
  · rw [same]
    refine sorted_links sorted frame fun x inX m inRest => ?_
    exact linked.beside (List.mem_filter.mp inX).1 m (List.mem_of_mem_erase inRest)
  · have := List.length_erase_of_mem member
    have := List.length_pos_of_mem member
    simp only [relink, opened.counted]
    omega

/-- `addMetadata` lists a new header once no stale one is left. -/
theorem Opened.add (opened : Opened s pre post a e [] fresh) (low : a ≤ n) (high : n + 32 ≤ e)
    (apart : ∀ m ∈ fresh, Apart n m) :
    ∃ bytes head, Returns (addMetadata n) s () (relink s bytes head 1) ∧
      Opened (relink s bytes head 1) pre post a e [] (n :: fresh) ∧
      Set.EqOn bytes s.bytes (linkCells (n :: fresh ++ (pre ++ post).map Block.address))ᶜ := by
  obtain ⟨nodes, perm, linked, sorted⟩ := opened.listed
  have proper := opened.proper
  have small := opened.small
  have base := opened.below.le
  have top := opened.above.le
  have apartAll : ∀ m ∈ nodes, Apart n m := by
    intro m member
    rcases List.mem_append.mp (perm.mem_iff.mp member) with inside | outside
    · exact apart m (by simpa using inside)
    · exact opened.apart low high outside
  have newcomer : Newcomer s nodes n := by
    refine ⟨by omega, by omega, opened.mapped low high, fun same => ?_, apartAll⟩
    have := apartAll n same
    unfold Apart at this
    omega
  obtain ⟨bytes, head, more, run, permMore, linkedMore, sortedMore, frame⟩ :=
    addMetadata_returns linked newcomer (by simpa using sorted)
  have permAll : (n :: nodes).Perm (n :: fresh ++ (pre ++ post).map Block.address) :=
    perm.cons n
  have frame' : Set.EqOn bytes s.bytes
      (linkCells (n :: fresh ++ (pre ++ post).map Block.address))ᶜ :=
    frame.mono (Set.compl_subset_compl.mpr (linkCells_mono fun m => permAll.mem_iff.mp))
  have all : (more.filter fun m => m ∉ ([] : List Nat)) = more := by simp
  refine ⟨bytes, head, run, ?_, frame'⟩
  refine ⟨⟨proper, opened.aligned, opened.origin, small⟩, opened.below, opened.above,
    opened.ordered, ?_, ?_, ⟨more, permMore.trans permAll, linkedMore, ?_⟩, ?_⟩
  · refine opened.stored_links frame' fun m member => ?_
    rcases List.mem_cons.mp member with rfl | member
    · exact Or.inl ⟨low, high⟩
    · exact (opened.node member).imp And.right id
  · intro m member
    rcases List.mem_cons.mp member with rfl | member
    · exact ⟨low, high⟩
    · exact opened.within m member
  · rw [all]
    exact sortedMore
  · simp only [relink, opened.counted, List.length_cons]
    omega

/-- A write inside the interval that spares the links of the listed headers and
the sizes of the fresh ones. -/
theorem Opened.write (opened : Opened s pre post a e stale fresh) {bytes : Memory}
    {changed : Set Nat} (frame : Set.EqOn bytes s.bytes changedᶜ)
    (inside : ∀ x ∈ changed, a ≤ x ∧ x < e)
    (links : ∀ m ∈ stale ++ fresh, ∀ x ∈ changed, x < m + 16 ∨ m + 32 ≤ x)
    (sizes : ∀ m ∈ fresh, ∀ x ∈ changed, x < m ∨ m + 8 ≤ x) :
    Opened (s.withBytes bytes) pre post a e stale fresh := by
  obtain ⟨nodes, perm, linked, sorted⟩ := opened.listed
  have known : ∀ m ∈ nodes, (m ∈ stale ++ fresh ∧ a ≤ m ∧ m + 32 ≤ e) ∨
      ∃ b ∈ pre ++ post, b.address = m := fun m member => opened.node (perm.mem_iff.mp member)
  refine ⟨⟨opened.proper, opened.aligned, opened.origin, opened.small⟩, opened.below, opened.above,
    opened.ordered, ?_, opened.within, ⟨nodes, perm, ?_, ?_⟩, opened.counted⟩
  · intro b member
    have place := opened.beside member
    refine (opened.stored b member).frame frame ?_ ?_ <;>
    · intro x low high here
      have := inside x here
      omega
  · refine linked.congr (t := s.withBytes bytes) rfl frame ?_ linked.mapped
    intro m member x low high here
    rcases known m member with ⟨own, _⟩ | ⟨b, outside, rfl⟩
    · have := links m own x here
      omega
    · have := opened.beside outside
      have := inside x here
      omega
  · refine sorted.imp_of_mem fun {x y} inX inY before => ?_
    have kept : ∀ m, m ∈ nodes.filter (fun m => m ∉ stale) → size bytes m = size s.bytes m := by
      intro m member
      obtain ⟨listed, notStale⟩ := List.mem_filter.mp member
      refine size_frame frame fun x low high here => ?_
      rcases known m listed with ⟨own, _⟩ | ⟨b, outside, rfl⟩
      · have isFresh : m ∈ fresh := by simpa [of_decide_eq_true notStale] using own
        have := sizes m isFresh x here
        omega
      · have := opened.beside outside
        have := inside x here
        omega
    unfold Before at before ⊢
    simp only [Machine.withBytes, kept x inX, kept y inY]
    exact before

/-- The break moves up behind an interval at the end of the heap. -/
theorem Opened.grow (opened : Opened s pre [] a e stale fresh) (top : Nat)
    (replies : List Reply) {bytes : Memory} (up : s.brk ≤ top) (small : top < 2 ^ 64 - 1)
    (frame : Set.EqOn bytes s.bytes (Set.Ico s.brk top)ᶜ) :
    Opened { s with brk := top, bytes := bytes, replies := replies } pre [] a top stale fresh := by
  have isEnd : e = s.brk := opened.above
  obtain ⟨nodes, perm, linked, sorted⟩ := opened.listed
  have below : ∀ m ∈ nodes, m + 32 ≤ s.brk := by
    intro m member
    rcases opened.node (perm.mem_iff.mp member) with ⟨_, inside⟩ | ⟨b, outside, rfl⟩
    · omega
    · have := opened.beside outside
      omega
  have clear : ∀ x, x < s.brk → x ∉ Set.Ico s.brk top := fun x low here => by
    have := here.1
    omega
  have high := opened.ordered
  refine ⟨⟨opened.proper, opened.aligned, opened.origin, small⟩, opened.below, rfl, by omega,
    ?_, ?_, ⟨nodes, perm, ?_, ?_⟩, opened.counted⟩
  · intro b member
    have place := opened.beside member
    exact (opened.stored b member).frame frame (fun x _ _ => clear x (by omega))
      (fun x _ _ => clear x (by omega))
  · intro m member
    have := opened.within m member
    omega
  · refine linked.congr rfl frame (fun m member x _ _ => clear x ?_) fun m member => ?_
    · have := below m member
      omega
    · rcases opened.node (perm.mem_iff.mp member) with ⟨_, inside⟩ | ⟨b, outside, rfl⟩
      · have := opened.below.le
        exact Machine.mapped_heap (by simp only; omega) (by simp only; omega)
      · have := opened.beside outside
        exact Machine.mapped_heap (by simp only; omega) (by simp only; omega)
  · refine sorted.imp_of_mem fun {x y} inX inY before => ?_
    have kept : ∀ m ∈ nodes, size bytes m = size s.bytes m := by
      intro m member
      have := below m member
      exact size_frame frame fun x _ _ => clear x (by omega)
    unfold Before at before ⊢
    simp only [kept x (List.mem_filter.mp inX).1, kept y (List.mem_filter.mp inY).1]
    exact before

/-- Only membership in the stale headers matters. -/
theorem Opened.perm {order : List Nat} (opened : Opened s pre post a e stale fresh)
    (perm : stale.Perm order) : Opened s pre post a e order fresh := by
  obtain ⟨nodes, permNodes, linked, sorted⟩ := opened.listed
  have same : (fun n => decide (n ∉ order)) = fun n => decide (n ∉ stale) := by
    funext n
    simp [perm.mem_iff]
  refine ⟨opened.toGrounded, opened.below, opened.above, opened.ordered, opened.stored, ?_,
    ⟨nodes, permNodes.trans ?_, linked, same ▸ sorted⟩, ?_⟩
  · intro n member
    apply opened.within n
    simpa [perm.mem_iff] using member
  · exact (perm.append_right fresh).append_right _
  · rw [opened.counted, perm.length_eq]

/-- Two list edits in a row are one. -/
theorem relink_relink {first second : Memory} {head next : Nat} {delta more : Int} :
    relink (relink s first head delta) second next more = relink s second next (delta + more) := by
  simp [relink, Int.add_assoc]

/-- Records inside the interval keep size and flag when only links change. -/
theorem Opened.kept (opened : Opened s pre post a e stale fresh) {left right : Memory}
    {l : List Nat} {x : Nat}
    (frame : Set.EqOn left right (linkCells (l ++ (pre ++ post).map Block.address))ᶜ)
    (low : a ≤ x) (high : x + 32 ≤ e) (apart : ∀ m ∈ l, x = m ∨ Apart x m) :
    size left x = size right x ∧ isFree left x = isFree right x := by
  have beside : ∀ m ∈ l ++ (pre ++ post).map Block.address, x = m ∨ Apart x m := by
    intro m member
    rcases List.mem_append.mp member with own | outside
    · exact apart m own
    · exact Or.inr (opened.apart low high outside)
  exact ⟨size_links frame beside, isFree_links frame beside⟩

/-- Take all stale headers off the list, in any order. -/
theorem Opened.removeAll (order : List Nat) (opened : Opened s pre post a e order []) :
    ∃ bytes head delta,
      (∀ {β : Type} {rest : Alloc β} {r : β} {u : State},
        Returns rest (relink s bytes head delta) r u →
        Returns (order.foldr (fun n rest => removeMetadata n >>= fun _ => rest) rest) s r u) ∧
      Opened (relink s bytes head delta) pre post a e [] [] ∧
      Set.EqOn bytes s.bytes (linkCells (order ++ (pre ++ post).map Block.address))ᶜ := by
  induction order generalizing s with
  | nil =>
    have same : relink s s.bytes s.globals.blockList.head 0 = s := by simp [relink]
    refine ⟨s.bytes, s.globals.blockList.head, 0, ?_, ?_, fun _ _ => rfl⟩
    · intro β rest r u run
      rw [same] at run
      exact run
    · simpa only [same] using opened
  | cons n order inductionHypothesis =>
    obtain ⟨first, head, run, removed, frame⟩ := opened.remove (List.mem_cons_self (a := n))
    rw [List.erase_cons_head] at removed frame
    obtain ⟨bytes, head', delta, runRest, cleared, frameRest⟩ := inductionHypothesis removed
    rw [relink_relink] at runRest cleared
    refine ⟨bytes, head', -1 + delta, ?_, cleared, ?_⟩
    · intro β rest r u runAfter
      exact Returns.bind run (runRest runAfter)
    · have wider := linkCells_mono
        (List.subset_cons_self n (order ++ (pre ++ post).map Block.address))
      rw [List.append_nil] at frame
      exact (frameRest.mono (Set.compl_subset_compl.mpr wider)).trans
        (frame.mono (Set.compl_subset_compl.mpr wider))

/-- The block that fills an interval, its footer a copy of its header. -/
def filling (a e : Nat) (free : Bool) : Block := ⟨a, e - a - 64, free, free⟩

/-- `copyFooter` on a header of known size. -/
theorem copyFooter_returns {payload : Nat} (sized : size s.bytes a = payload)
    (header : s.Mapped a 32) (footer : s.Mapped (a + payload + 32) 32) :
    Returns (copyFooter a) s () (s.withBytes (copy s.bytes (a + payload + 32) a 32)) := by
  unfold copyFooter
  exact Returns.bind ((readSize_returns header).to sized) (memmove_returns header footer)

/-- A header and its copy are a stored block. -/
theorem stored_copy {bytes : Memory} {payload : Nat} {free : Bool}
    (sized : size bytes a = payload) (flag : isFree bytes a = free) :
    Stored (copy bytes (a + payload + 32) a 32) ⟨a, payload, free, free⟩ := by
  have frame : Set.EqOn (copy bytes (a + payload + 32) a 32) bytes (cells (a + payload + 32) 32)ᶜ :=
    copy_outside bytes (a + payload + 32) a 32
  obtain ⟨footSize, foot⟩ :=
    copied_fields bytes (a + payload + 32) a
  have header : ∀ x, x < a + 32 → x ∉ cells (a + payload + 32) 32 := fun x low => by
    simp only [mem_cells]
    omega
  exact ⟨(size_frame frame fun x _ high => header x (by simp only at high; omega)).trans sized,
    (isFree_frame frame fun x _ high => header x (by simp only at high; omega)).trans flag,
    footSize.trans sized, foot.trans flag⟩

/-- List the one header of the interval and write its footer: the interval is
closed as one block. -/
theorem Opened.join (opened : Opened s pre post a e [] []) (room : a + 64 ≤ e)
    (sized : size s.bytes a = e - a - 64) {free : Bool} (flag : isFree s.bytes a = free) :
    ∃ bytes head, Returns (addMetadata a) s () (relink s bytes head 1) ∧
      size bytes a = e - a - 64 ∧ (relink s bytes head 1).Mapped a 32 ∧
      (relink s bytes head 1).Mapped (e - 32) 32 ∧
      Tiled (relink s (copy bytes (e - 32) a 32) head 1) (pre ++ filling a e free :: post) ∧
      Set.EqOn (copy bytes (e - 32) a 32) s.bytes
        (linkCells (a :: (pre ++ post).map Block.address) ∪ cells (e - 32) 32)ᶜ := by
  obtain ⟨bytes, head, run, listed, frame⟩ := opened.add (Nat.le_refl a) (by omega) (by simp)
  obtain ⟨sizeKept, flagKept⟩ := opened.kept (l := [a]) frame (Nat.le_refl a) (by omega)
    (by simp)
  have place : a + (e - a - 64) + 32 = e - 32 := by omega
  have stored := stored_copy (sizeKept.trans sized) (flagKept.trans flag)
  rw [place] at stored
  have written : Set.EqOn (copy bytes (e - 32) a 32) bytes (cells (e - 32) 32)ᶜ :=
    copy_outside _ _ _ _
  have closed := listed.write written
    (fun x inside => by simp only [mem_cells] at inside; omega)
    (fun m member x inside => by simp at member; simp only [mem_cells] at inside; omega)
    (fun m member x inside => by simp at member; simp only [mem_cells] at inside; omega)
  have tiled := closed.close (show Tile a [filling a e free] e by simp [filling, Block.extent]; omega)
    (List.forall_mem_singleton.mpr stored) (by simp [filling])
  refine ⟨bytes, head, run, sizeKept.trans sized, opened.mapped (Nat.le_refl a) (by omega),
    opened.mapped (by omega) (by omega), ?_, ?_⟩
  · rw [List.append_assoc] at tiled
    exact tiled
  · refine (written.mono ?_).trans (frame.mono ?_) <;> intro x outside inside <;>
      exact outside (by simp_all)

/-- Take the stale headers off the list, list the first one again and write the
footer: the interval has become one block, of the size its header states. -/
theorem Opened.rejoin (order : List Nat) (opened : Opened s pre post a e order [])
    (first : a ∈ order) (room : a + 64 ≤ e) (sized : size s.bytes a = e - a - 64) {free : Bool}
    (flag : isFree s.bytes a = free) :
    ∃ bytes head delta,
      (∀ {β : Type} {rest : Alloc β} {r : β} {u : State},
        Returns rest (relink s bytes head delta) r u →
        Returns (order.foldr (fun n rest => removeMetadata n >>= fun _ => rest)
          (addMetadata a >>= fun _ => copyFooter a >>= fun _ => rest)) s r u) ∧
      Tiled (relink s bytes head delta) (pre ++ filling a e free :: post) ∧
      Set.EqOn bytes s.bytes
        (linkCells (order ++ (pre ++ post).map Block.address) ∪ cells (e - 32) 32)ᶜ := by
  have beside : ∀ m ∈ order, a = m ∨ Apart a m := by
    obtain ⟨nodes, perm, linked, _⟩ := opened.listed
    intro m member
    exact linked.beside (perm.mem_iff.mpr (by simp [first])) m (perm.mem_iff.mpr (by simp [member]))
  obtain ⟨bare, head, delta, removals, cleared, frame⟩ := opened.removeAll order
  obtain ⟨sizeKept, flagKept⟩ := opened.kept frame (Nat.le_refl a) (by omega) beside
  obtain ⟨bytes, head', run, sizeNow, header, footer, tiled, frame'⟩ :=
    cleared.join room (sizeKept.trans sized) (flagKept.trans flag)
  rw [relink_relink] at tiled
  have place : a + (e - a - 64) + 32 = e - 32 := by omega
  refine ⟨copy bytes (e - 32) a 32, head', delta + 1, ?_, tiled, ?_⟩
  · intro β rest r u runAfter
    refine removals (Returns.bind run (Returns.bind (copyFooter_returns sizeNow header ?_) ?_))
    · rwa [place]
    · rw [place]
      have same : (relink (relink s bare head delta) bytes head' 1).withBytes
          (copy bytes (e - 32) a 32) = relink s (copy bytes (e - 32) a 32) head' (delta + 1) := by
        simp [relink, Machine.withBytes, Int.add_assoc]
      exact same ▸ runAfter
  · refine (frame'.mono ?_).trans (frame.mono ?_) <;>
      apply Set.compl_subset_compl.mpr
    · refine Set.union_subset_union (linkCells_mono ?_) (Set.Subset.refl _)
      intro m member
      rcases List.mem_cons.mp member with rfl | member
      · simp [first]
      · exact List.mem_append_right _ member
    · exact Set.subset_union_left

/-- What a tiled heap depends on. -/
def footing (s : State) : Memory × Nat × Nat × List (Nat × Nat) × Nat × Nat × Int :=
  (s.bytes, s.heapStart, s.brk, s.maps, s.globals.sbrkStart, s.globals.blockList.head,
    s.globals.blockList.size)

/-- Counters, wilderness and pending answers are no part of an opened heap. -/
theorem Opened.congr (opened : Opened s pre post a e stale fresh) (same : footing t = footing s) :
    Opened t pre post a e stale fresh := by
  obtain ⟨bytes, heapStart, brk, maps, replies, stray, ⟨statistics, origin, ⟨head, wild, count⟩⟩⟩ := s
  obtain ⟨_, _, _, _, _, _, ⟨_, _, ⟨_, _, _⟩⟩⟩ := t
  simp only [footing, Prod.mk.injEq] at same
  obtain ⟨rfl, rfl, rfl, rfl, rfl, rfl, rfl⟩ := same
  obtain ⟨nodes, perm, linked, sorted⟩ := opened.listed
  exact ⟨⟨opened.proper, opened.aligned, opened.origin, opened.small⟩, opened.below, opened.above,
    opened.ordered, opened.stored, opened.within,
    ⟨nodes, perm, ⟨linked.chain, linked.mapped, linked.apart, linked.small⟩, sorted⟩, opened.counted⟩

/-- Counters, wilderness and pending answers are no part of a tiled heap. -/
theorem Tiled.congr {blocks : List Block} (tiled : Tiled s blocks)
    (same : footing t = footing s) : Tiled t blocks := by
  obtain ⟨bytes, heapStart, brk, maps, replies, stray, ⟨statistics, origin, ⟨head, wild, count⟩⟩⟩ := s
  obtain ⟨_, _, _, _, _, _, ⟨_, _, ⟨_, _, _⟩⟩⟩ := t
  simp only [footing, Prod.mk.injEq] at same
  obtain ⟨rfl, rfl, rfl, rfl, rfl, rfl, rfl⟩ := same
  obtain ⟨nodes, perm, linked, sorted⟩ := tiled.listed
  exact ⟨⟨tiled.proper, tiled.aligned, tiled.origin, tiled.small⟩, tiled.tiles, tiled.stored,
    ⟨nodes, perm, ⟨linked.chain, linked.mapped, linked.apart, linked.small⟩, sorted⟩, tiled.counted⟩

/-- The same blocks can be opened with their headers kept in order, for changes
that leave every size as it is. -/
theorem Tiled.reopened (tiled : Tiled s (pre ++ mid ++ post)) (below : Tile s.heapStart pre a)
    (middle : Tile a mid e) (above : Tile e post s.brk) :
    Opened s pre post a e [] (mid.map Block.address) := by
  have opened := tiled.opened below middle above
  obtain ⟨nodes, perm, linked, sorted⟩ := tiled.listed
  refine ⟨tiled.toGrounded, below, above, opened.ordered, opened.stored, ?_,
    ⟨nodes, ?_, linked, by simpa using sorted⟩, ?_⟩
  · intro n member
    exact opened.within n (by simpa using member)
  · apply perm.trans
    simp only [List.map_append, List.nil_append, ← List.append_assoc]
    exact List.perm_append_comm.append_right _
  · rw [opened.counted]
    simp

/-- The header and footer cells of blocks. -/
def records (blocks : List Block) : Set Nat :=
  {x | ∃ b ∈ blocks, (b.address ≤ x ∧ x < b.address + 32) ∨
    (b.address + b.size + 32 ≤ x ∧ x < b.address + b.size + 64)}

/-- Links lie in headers. -/
theorem linkCells_records {blocks : List Block} :
    linkCells (blocks.map Block.address) ⊆ records blocks := by
  rintro x ⟨n, member, inside⟩
  obtain ⟨b, listed, rfl⟩ := List.mem_map.mp member
  exact ⟨b, listed, Or.inl ⟨by omega, inside.2⟩⟩

/-- A payload shares no cell with any header or footer of its heap. -/
theorem payload_clear {low high : Nat} {blocks : List Block} (tiles : Tile low blocks high)
    {b : Block} (member : b ∈ blocks) {x : Nat} (start : b.address + 32 ≤ x)
    (finish : x < b.address + 32 + b.size) : x ∉ records blocks := by
  rintro ⟨c, other, inside⟩
  by_cases same : b = c
  · subst same
    omega
  · have := tiles.disjoint member other same
    simp only [Block.extent_eq] at this
    omega

/-- A block's place in a tiled heap: it lies between what is before and after. -/
theorem Tiled.place {b : Block} (tiled : Tiled s (pre ++ b :: post)) :
    Tile s.heapStart pre b.address ∧ Tile b.address [b] (b.address + b.size + 64) ∧
      Tile (b.address + b.size + 64) post s.brk := by
  obtain ⟨below, above⟩ := tiled.tiles.around
  exact ⟨below, ⟨rfl, rfl⟩, above⟩

/-- A tiled heap depends on the cells of its records only, and not on the
mappings. -/
theorem Tiled.recorded {blocks : List Block} (tiled : Tiled s blocks)
    (heapStart : t.heapStart = s.heapStart) (brk : t.brk = s.brk)
    (origin : t.globals.sbrkStart = s.globals.sbrkStart)
    (list : t.globals.blockList = s.globals.blockList)
    (frame : Set.EqOn t.bytes s.bytes (records blocks)) : Tiled t blocks := by
  obtain ⟨nodes, perm, linked, sorted⟩ := tiled.listed
  have frame' : Set.EqOn t.bytes s.bytes (records blocks)ᶜᶜ := by
    rwa [compl_compl]
  have header : ∀ n ∈ nodes, ∀ x, n ≤ x → x < n + 32 → x ∉ (records blocks)ᶜ := by
    intro n member x low high outside
    obtain ⟨b, listed, rfl⟩ := List.mem_map.mp (perm.mem_iff.mp member)
    exact outside ⟨b, listed, Or.inl ⟨low, high⟩⟩
  refine ⟨⟨?_, ?_, ?_, ?_⟩, ?_, ?_, ⟨nodes, perm, ?_, ?_⟩, ?_⟩
  · exact heapStart ▸ tiled.proper
  · exact heapStart ▸ tiled.aligned
  · rw [origin, heapStart]
    exact tiled.origin
  · exact brk ▸ tiled.small
  · rw [heapStart, brk]
    exact tiled.tiles
  · intro b member
    exact (tiled.stored b member).frame frame'
      (fun x low high outside => outside ⟨b, member, Or.inl ⟨low, by omega⟩⟩)
      (fun x low high outside => outside ⟨b, member, Or.inr ⟨low, by omega⟩⟩)
  · refine linked.congr (congrArg BlockList.head list) frame' (fun n member x low high => ?_) ?_
    · exact header n member x (by omega) high
    · intro n member
      obtain ⟨b, listed, rfl⟩ := List.mem_map.mp (perm.mem_iff.mp member)
      have := tiled.within listed
      exact Machine.mapped_heap (by omega) (by omega)
  · refine sorted.imp_of_mem fun {x y} inX inY before => ?_
    have kept : ∀ n ∈ nodes, size t.bytes n = size s.bytes n := by
      intro n member
      exact size_frame frame' fun x low high => header n member x low (by omega)
    unfold Before at before ⊢
    rw [kept x inX, kept y inY]
    exact before
  · rw [list]
    exact tiled.counted

/-- Records lie in the heap. -/
theorem records_within {low high : Nat} {blocks : List Block} (tiles : Tile low blocks high) :
    records blocks ⊆ Set.Ico low high := by
  rintro x ⟨b, member, inside⟩
  have := tiles.within member
  rw [b.extent_eq] at this
  exact ⟨by omega, by omega⟩

/-- Nothing outside the heap matters to it: not other bytes, and not the mappings. -/
theorem Tiled.outside {blocks : List Block} (tiled : Tiled s blocks)
    (heapStart : t.heapStart = s.heapStart) (brk : t.brk = s.brk)
    (origin : t.globals.sbrkStart = s.globals.sbrkStart)
    (list : t.globals.blockList = s.globals.blockList)
    (frame : Set.EqOn t.bytes s.bytes (Set.Ico s.heapStart s.brk)) : Tiled t blocks :=
  tiled.recorded heapStart brk origin list (frame.mono (records_within tiled.tiles))

end OperatingSystems.Malloc3
