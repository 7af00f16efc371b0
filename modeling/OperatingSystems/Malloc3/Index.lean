import OperatingSystems.Malloc3.BlockList
import OperatingSystems.Runs

/-!
# The block list as a best-fit index

The list never sees a size being written: a block has its size before it is
added, and `mergeBlocks` enlarges a block that is still listed. The order
survives that, because every block whose size was changed leaves the list before
the next one is added. Under this rule the list is sorted whenever no changed
block is listed, whatever was added and removed before.
-/

namespace OperatingSystems.Malloc3

open Process MallocMetadata Runs

/-- A call of `addMetadata` or `removeMetadata`, or other code. -/
inductive Access
  | add (node : Nat)
  | remove (node : Nat)
  | other (code : State → State)

/-- The process, and the nodes added and not removed, each with the size that it had
when it was added. -/
structure Listing where
  state : State
  nodes : List (Nat × Nat)

/-- The nodes without their sizes. -/
def Listing.addresses (l : Listing) : List Nat := l.nodes.map Prod.fst

/-- Perform one access. -/
def access : Access → Listing → Except Fault Listing
  | .add a, l => do
    let (_, t) ← addMetadata a l.state
    pure ⟨t, (a, size l.state.bytes a) :: l.nodes⟩
  | .remove a, l => do
    let (_, t) ← removeMetadata a l.state
    pure ⟨t, l.nodes.filter fun e => e.1 ≠ a⟩
  | .other code, l => pure ⟨code l.state, l.nodes⟩

/-- No listed node has another size than when it was added. -/
def Listing.Settled (l : Listing) : Prop := ∀ e ∈ l.nodes, size l.state.bytes e.1 = e.2

instance (l : Listing) : Decidable l.Settled := inferInstanceAs (Decidable (∀ e ∈ l.nodes, _))

/-- Other code keeps its hands off the list and its links; sizes and flags are its own. -/
structure SparesList (nodes : List Nat) (s t : State) : Prop where
  head : t.globals.blockList.head = s.globals.blockList.head
  count : t.globals.blockList.size = s.globals.blockList.size
  mapped : ∀ n ∈ nodes, t.Mapped n 32
  links : ∀ n ∈ nodes, next t.bytes n = next s.bytes n ∧ prev t.bytes n = prev s.bytes n

instance (nodes : List Nat) (s t : State) : Decidable (SparesList nodes s t) :=
  decidable_of_iff (t.globals.blockList.head = s.globals.blockList.head ∧
      t.globals.blockList.size = s.globals.blockList.size ∧ (∀ n ∈ nodes, t.Mapped n 32) ∧
      ∀ n ∈ nodes, next t.bytes n = next s.bytes n ∧ prev t.bytes n = prev s.bytes n)
    ⟨fun ⟨head, count, mapped, links⟩ => ⟨head, count, mapped, links⟩,
      fun spares => ⟨spares.head, spares.count, spares.mapped, spares.links⟩⟩

instance (a b : Nat) : Decidable (Apart a b) := inferInstanceAs (Decidable (_ ∨ _))

instance (s : State) (nodes : List Nat) (a : Nat) : Decidable (Newcomer s nodes a) :=
  decidable_of_iff (a ≠ 0 ∧ a < 2 ^ 64 ∧ s.Mapped a 32 ∧ a ∉ nodes ∧ ∀ n ∈ nodes, Apart a n)
    ⟨fun ⟨proper, small, mapped, fresh, apart⟩ => ⟨proper, small, mapped, fresh, apart⟩,
      fun newcomer => ⟨newcomer.proper, newcomer.small, newcomer.mapped, newcomer.fresh,
        newcomer.apart⟩⟩

/-- A node is added while it is not listed and no changed node is, and removed while
it is listed. -/
def Orderly : Access → Listing → Prop
  | .add a, l => Newcomer l.state l.addresses a ∧ l.Settled
  | .remove a, l => a ∈ l.addresses
  | .other code, l => SparesList l.addresses l.state (code l.state)

instance : (x : Access) → (l : Listing) → Decidable (Orderly x l)
  | .add a, l => inferInstanceAs (Decidable (Newcomer l.state l.addresses a ∧ l.Settled))
  | .remove a, l => inferInstanceAs (Decidable (a ∈ l.addresses))
  | .other code, l => inferInstanceAs (Decidable (SparesList l.addresses l.state (code l.state)))

/-- By size, and by address among equal sizes. -/
def Precedes (x y : Nat × Nat) : Prop := x.2 < y.2 ∨ x.2 = y.2 ∧ x.1 < y.1

variable {s : State} {l : Listing} {order : List (Nat × Nat)} {nodes : List Nat} {a : Nat}

/-- The list holds the nodes, sorted by the sizes that they had when they were added. -/
structure Listing.Kept (l : Listing) (order : List (Nat × Nat)) : Prop where
  perm : order.Perm l.nodes
  linked : Linked l.state (order.map Prod.fst)
  sorted : order.Pairwise Precedes
  counted : l.state.globals.blockList.size = order.length

/-- While no changed node is listed, the sizes in the headers say the same. -/
theorem Listing.Kept.ordered (kept : l.Kept order) (settled : l.Settled) :
    (order.map Prod.fst).Pairwise (Before l.state.bytes) := by
  refine List.pairwise_map.mpr (kept.sorted.imp_of_mem fun {x y} inX inY precedes => ?_)
  unfold Before
  rw [settled x (kept.perm.mem_iff.mp inX), settled y (kept.perm.mem_iff.mp inY)]
  exact precedes

/-- Adding a node to a settled list. -/
theorem Listing.Kept.add (kept : l.Kept order) (settled : l.Settled)
    (newcomer : Newcomer l.state l.addresses a) :
    ∃ next more, access (.add a) l = .ok next ∧ next.Kept more := by
  have same : (order.map Prod.fst).Perm l.addresses := kept.perm.map Prod.fst
  have fresh : Newcomer l.state (order.map Prod.fst) a :=
    ⟨newcomer.proper, newcomer.small, newcomer.mapped, fun member => newcomer.fresh (same.mem_iff.mp member),
      fun n member => newcomer.apart n (same.mem_iff.mp member)⟩
  obtain ⟨bytes, head, more, run, perm, linked, sorted, frame⟩ :=
    addMetadata_returns kept.linked fresh (kept.ordered settled)
  -- The writes to the links change no size.
  have sizes : ∀ n ∈ a :: order.map Prod.fst, size bytes n = size l.state.bytes n := fun n member =>
    size_links frame fun m inAll => linked.beside (perm.mem_iff.mpr member) m (perm.mem_iff.mpr inAll)
  have sized : (a :: order.map Prod.fst).map (fun n => (n, size bytes n)) =
      (a, size l.state.bytes a) :: order := by
    rw [List.map_cons, sizes a (by simp), List.map_map]
    congr 1
    refine (List.map_congr_left fun e member => ?_).trans (List.map_id order)
    simp only [Function.comp, sizes e.1 (by simp; exact Or.inr ⟨_, member⟩),
      settled e (kept.perm.mem_iff.mp member), id]
  refine ⟨⟨relink l.state bytes head 1, (a, size l.state.bytes a) :: l.nodes⟩,
    more.map fun n => (n, size bytes n), ?_, ?_, ?_, ?_, ?_⟩
  · simp only [access, show addMetadata a l.state = _ from run]
    rfl
  · exact ((perm.map _).trans (.of_eq sized)).trans (kept.perm.cons _)
  · rw [List.map_map]
    exact (List.map_id more).symm ▸ linked
  · exact List.pairwise_map.mpr sorted
  · have := perm.length_eq
    simp only [relink, kept.counted, List.length_map, List.length_cons] at this ⊢
    omega

/-- Removing a node, whatever sizes were changed. -/
theorem Listing.Kept.remove (kept : l.Kept order) (member : a ∈ l.addresses) :
    ∃ next, access (.remove a) l = .ok next ∧ next.Kept (order.filter fun e => e.1 ≠ a) := by
  have same : (order.map Prod.fst).Perm l.addresses := kept.perm.map Prod.fst
  have inList := same.mem_iff.mpr member
  obtain ⟨bytes, head, run, linked, _⟩ := removeMetadata_returns kept.linked inList
  have erased : (order.map Prod.fst).erase a = (order.filter fun e => e.1 ≠ a).map Prod.fst := by
    rw [kept.linked.chain.distinct.erase_eq_filter, List.filter_map]
    congr 2
    funext e
    exact Bool.eq_iff_iff.mpr (by simp)
  refine ⟨⟨relink l.state bytes head (-1), l.nodes.filter fun e => e.1 ≠ a⟩, ?_,
    kept.perm.filter _, erased ▸ linked, kept.sorted.filter _, ?_⟩
  · simp only [access, show removeMetadata a l.state = _ from run]
    rfl
  · have shorter := congrArg List.length erased
    have := List.length_pos_of_mem inList
    rw [List.length_erase_of_mem inList, List.length_map, List.length_map] at shorter
    simp only [relink, kept.counted, List.length_map] at this ⊢
    omega

/-- Other code that spares the list. -/
theorem Listing.Kept.other {t : State} (kept : l.Kept order) (spares : SparesList l.addresses l.state t) :
    Listing.Kept ⟨t, l.nodes⟩ order := by
  have same : (order.map Prod.fst).Perm l.addresses := kept.perm.map Prod.fst
  have linked := kept.linked
  refine ⟨kept.perm, ⟨linked.chain.congr spares.head (fun n member => ?_) (fun n member => ?_),
    fun n member => spares.mapped n (same.mem_iff.mp member), linked.apart, linked.small⟩, kept.sorted,
    spares.count.trans kept.counted⟩
  · exact (spares.links n (same.mem_iff.mp member)).1
  · exact (spares.links n (same.mem_iff.mp member)).2

/-- One access that keeps to the rule. -/
theorem Listing.Kept.step {x : Access} (kept : l.Kept order) (orderly : Orderly x l) :
    ∃ next more, access x l = .ok next ∧ next.Kept more := by
  cases x with
  | add a => exact kept.add orderly.2 orderly.1
  | remove a =>
    obtain ⟨next, run, after⟩ := kept.remove orderly
    exact ⟨next, _, run, after⟩
  | other code => exact ⟨_, order, rfl, kept.other orderly⟩

/-- The list holds exactly these nodes, in this order from null to null, and its size
counts them. Each node is the predecessor of the next one, and the head has none. -/
structure Holds (s : State) (nodes order : List Nat) : Prop where
  exactly : order.Perm nodes
  chain : (links s).Represents 0 order
  first : s.globals.blockList.head ≠ 0 → prev s.bytes s.globals.blockList.head = 0
  mirrored : ∀ x ∈ order, next s.bytes x ≠ 0 → prev s.bytes (next s.bytes x) = x
  counted : s.globals.blockList.size = order.length

/-- The predecessor of the head is null. -/
theorem Linked.first (linked : Linked s nodes) (occupied : s.globals.blockList.head ≠ 0) :
    prev s.bytes s.globals.blockList.head = 0 := by
  have isHead : s.globals.blockList.head = nodes.headD 0 := linked.chain.head
  cases nodes with
  | nil => exact absurd isHead occupied
  | cons x rest =>
    rw [isHead]
    exact (linked.chain.around (l := [])).2

/-- The predecessor of the next node is the node. -/
theorem Linked.mirrored (linked : Linked s nodes) (member : a ∈ nodes) (more : next s.bytes a ≠ 0) :
    prev s.bytes (next s.bytes a) = a := by
  obtain ⟨front, back, rfl⟩ := List.append_of_mem member
  have follows : next s.bytes a = back.headD 0 := linked.chain.around.1
  cases back with
  | nil => exact absurd follows more
  | cons y back =>
    rw [follows]
    have chain : (links s).Represents 0 ((front ++ [a]) ++ y :: back) := by simpa using linked.chain
    exact chain.around.2.trans (by simp)

/-- After any orderly sequence of accesses to an empty list it holds the nodes added and
not removed. Once no changed node is left it is sorted, and a search finds the
best fit. -/
theorem runs_index (s : State) (empty : s.globals.blockList.head = 0)
    (none : s.globals.blockList.size = 0) (accesses : List Access)
    (orderly : Obeys access Orderly accesses ⟨s, []⟩) :
    ∃ l order, execute access accesses ⟨s, []⟩ = .ok l ∧ Holds l.state l.addresses order ∧
      (l.Settled → order.Pairwise (Before l.state.bytes) ∧ ∀ n, ∃ p,
        Returns (searchFreeBlock n) l.state p l.state ∧ Chosen l.state.bytes order n p) := by
  have start : Listing.Kept ⟨s, []⟩ [] :=
    ⟨.refl _, ⟨DoublyLinked.represents_nil.mpr empty, by simp, by simp, by simp⟩, .nil, none⟩
  obtain ⟨l, reached, order, kept⟩ := (execute_ends (I := fun l : Listing => ∃ order, l.Kept order)
    (E := fun _ => False) (fun x l invariant allowed => by
      obtain ⟨order, kept⟩ := invariant
      obtain ⟨next, more, step, after⟩ := kept.step allowed
      rw [step]
      exact ⟨more, after⟩) ⟨[], start⟩ orderly).reaches
  refine ⟨l, order.map Prod.fst, reached,
    { exactly := kept.perm.map Prod.fst
      chain := kept.linked.chain
      first := kept.linked.first
      mirrored := fun x member => kept.linked.mirrored member
      counted := by simpa using kept.counted }, fun settled => ?_⟩
  have sorted := kept.ordered settled
  exact ⟨sorted, searchFreeBlock_chosen kept.linked sorted⟩

/-- Memory for three blocks, none of them listed. -/
@[irreducible] def unlisted : State where
  bytes := setSize (setSize (setSize (fun _ => 0) 4096 8) 4168 8) 4240 16
  heapStart := 4096
  brk := 4320
  maps := []
  replies := []
  strayUnmaps := []
  globals := ⟨⟨0, 0, 0, 0, 0⟩, 4096, ⟨0, 0, 0⟩⟩

/-- The accesses of a merge: the first block of two equal ones is enlarged while it is
listed, both are removed, and the first is added again. -/
@[irreducible] def merging : List Access :=
  [.add 4240, .add 4168, .add 4096, .other fun s => s.withBytes (setSize s.bytes 4096 80),
    .remove 4168, .remove 4096, .add 4096]

theorem runs_index_sample : ∃ l order, execute access merging ⟨unlisted, []⟩ = .ok l ∧
    Holds l.state l.addresses order ∧
      (l.Settled → order.Pairwise (Before l.state.bytes) ∧ ∀ n, ∃ p,
        Returns (searchFreeBlock n) l.state p l.state ∧ Chosen l.state.bytes order n p) :=
  runs_index unlisted (by decide +kernel) (by decide +kernel) merging (by decide +kernel)

end OperatingSystems.Malloc3
