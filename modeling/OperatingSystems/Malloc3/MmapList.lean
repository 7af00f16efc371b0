import OperatingSystems.Malloc3.BlockList
import OperatingSystems.Runs

/-!
# The list of mapped blocks

The build in `niv_tests` keeps the blocks it got from `mmap` in a list of their own,
`MmapList`. A block is added at the head. Removal handles the head by itself; for
any other block the loop runs to the end of the list, because it compares the head
again where it should compare the node it is at. The block then stays in the list,
and `sfree` unmaps it.

Only what this build does with mapped blocks is modelled: the branch of `smalloc`
from `MMAP_THRESHOLD` on, and `sfree` of such a block.
-/

namespace OperatingSystems.Malloc3.MmapList

open Bytes Process MallocMetadata DoublyLinked Runs

/-- The counters, and the head of `mmap_list`. -/
structure Globals where
  statistics : Statistics
  head : Nat
deriving DecidableEq, Repr

abbrev State := Machine Globals

abbrev Alloc := Program Globals

def updateStatistics (allocatedBlocks freeBlocks allocatedBytes freeBytes metadataBytes : Int) :
    Alloc Unit :=
  modifyGlobals fun g => { g with
    statistics := g.statistics.update allocatedBlocks freeBlocks allocatedBytes freeBytes metadataBytes }

def getHead : Alloc Nat := do pure (← globals).head

def setHead (head : Nat) : Alloc Unit := modifyGlobals fun g => { g with head := head }

/-- `MmapList::addMetadata`. -/
def addMetadata (metadata : Nat) : Alloc Unit := do
  let head ← getHead
  if head = 0 then do
    setHead metadata
    writeNext metadata 0
    writePrev metadata 0
  else do
    writePrev head metadata
    writeNext metadata head
    writePrev metadata 0
    setHead metadata

/-- The loop of `removeMetadata`, at `iter`. -/
def removeMetadataLoop (metadata : Nat) : Nat → Nat → Alloc Unit
  | 0, _ => throw .hang
  | fuel + 1, iter =>
    if iter = 0 then pure ()
    else do
      let head ← getHead
      -- The test names the head, not `iter`.
      if head = metadata then do
        let prev ← readPrev head
        let next ← readNext head
        writeNext prev next
        let next ← readNext head
        doIf (next ≠ 0) do
          let prev ← readPrev head
          writePrev next prev
      else do
        let next ← readNext iter
        removeMetadataLoop metadata fuel next

/-- `MmapList::removeMetadata`. -/
def removeMetadata (metadata : Nat) : Alloc Unit := do
  let head ← getHead
  if head = metadata then do
    let next ← readNext head
    setHead next
    doIf (next ≠ 0) (writePrev next 0)
  else do
    let next ← readNext head
    removeMetadataLoop metadata loopBound next

/-- `smalloc` of `size` bytes, already rounded, from `MMAP_THRESHOLD` on. -/
def mmapBlock (size : Nat) : Alloc Nat := do
  let address ← mmap (size + SOM)
  if address = mapFailed then pure 0
  else do
    writeSize address size
    writeFree address false
    addMetadata address
    updateStatistics 1 0 size 0 1
    pure (address + SOM)

/-- `sfree` of a block whose size is no less than `MMAP_THRESHOLD`. -/
def sfree (p : Nat) : Alloc Unit :=
  if p = 0 then pure ()
  else do
    let block := p - SOM
    let free ← readFree block
    if free then pure ()
    else do
      writeFree block true
      removeMetadata block
      let size ← readSize block
      munmap block (wrap (size + SOM))

/-- The process, and the blocks added and not yet removed, the latest one first. -/
structure System where
  state : State
  live : List Nat

/-- A call for a mapped block. -/
inductive Call where
  | smalloc (size : Nat)
  | sfree (p : Nat)
deriving DecidableEq, Repr

/-- Perform one call. -/
def perform (call : Call) (sys : System) : Except Fault System :=
  match call with
  | .smalloc size =>
    match mmapBlock size sys.state with
    | .ok (p, state) => .ok ⟨state, if p = 0 then sys.live else (p - SOM) :: sys.live⟩
    | .error fault => .error fault
  | .sfree p =>
    match sfree p sys.state with
    | .ok ((), state) => .ok ⟨state, sys.live.erase (p - SOM)⟩
    | .error fault => .error fault

/-- The size passes the test of `smalloc`, and what is freed is the pointer of a block. -/
def Legal (call : Call) (sys : System) : Prop :=
  match call with
  | .smalloc size => MMAP_THRESHOLD ≤ size
  | .sfree p => p ∈ sys.live.map (· + SOM)

/-- A block is freed only when no later one is still there. -/
def LastFirst (call : Call) (sys : System) : Prop :=
  match call with
  | .smalloc _ => True
  | .sfree p => sys.live.head?.map (· + SOM) = some p

instance (call : Call) (sys : System) : Decidable (Legal call sys) := by
  cases call <;> unfold Legal <;> exact inferInstance

instance (call : Call) (sys : System) : Decidable (LastFirst call sys) := by
  cases call <;> unfold LastFirst <;> exact inferInstance

/-- The list is that of the blocks that are there, and none of its links leads to
memory that is not mapped. -/
structure Exact (sys : System) : Prop where
  chain : (linksOf sys.state.bytes sys.state.globals.head).Represents 0 sys.live
  head : sys.state.globals.head = 0 ∨ sys.state.Mapped sys.state.globals.head SOM
  links : ∀ a ∈ sys.live, (next sys.state.bytes a = 0 ∨ sys.state.Mapped (next sys.state.bytes a) SOM) ∧
    (prev sys.state.bytes a = 0 ∨ sys.state.Mapped (prev sys.state.bytes a) SOM)

/-- The block at `a` is in use, in a mapping of its size. -/
structure InUse (bytes : Memory) (maps : List (Nat × Nat)) (a : Nat) : Prop where
  mapping : (a, size bytes a + 32) ∈ maps
  bounded : a + size bytes a + 32 < 2 ^ 64
  used : isFree bytes a = false

/-- The nodes are linked in this order, and each is a block in use. -/
structure Listed (s : State) (nodes : List Nat) : Prop where
  chain : (linksOf s.bytes s.globals.head).Represents 0 nodes
  blocks : ∀ a ∈ nodes, InUse s.bytes s.maps a
  apart : ∀ a ∈ nodes, ∀ b ∈ nodes, a ≠ b → Apart a b

/-- The state with other bytes and another head. -/
def relink (s : State) (bytes : Memory) (head : Nat) : State :=
  { s with bytes := bytes, globals := { s.globals with head := head } }

/-- The state after `smalloc` has counted a block. -/
def counted (s : State) (size : Nat) : State :=
  { s with globals := { s.globals with statistics := s.globals.statistics.update 1 0 size 0 1 } }

variable {s t : State} {nodes front rest : List Nat} {a n : Nat} {bytes : Memory} {sys : System} {call : Call}

theorem getHead_returns : Returns getHead s s.globals.head s := rfl

theorem setHead_returns : Returns (setHead a) s () (relink s s.bytes a) := rfl

theorem updateStatistics_returns : Returns (updateStatistics 1 0 n 0 1) s () (counted s n) := rfl

theorem Listed.mapped (listed : Listed s nodes) : ∀ a ∈ nodes, s.Mapped a 32 := by
  intro a member
  have block := listed.blocks a member
  exact Or.inr (Or.inr ⟨_, block.mapping, Nat.le_refl a, by simp only; omega⟩)

theorem Listed.small (listed : Listed s nodes) : ∀ a ∈ nodes, a < 2 ^ 64 := by
  intro a member
  have bounded := (listed.blocks a member).bounded
  omega

/-- The size and the flag of a block fill the first half of its record. -/
theorem InUse.frame {maps : List (Nat × Nat)} {new : Memory} {changed : Set Nat} (block : InUse bytes maps a)
    (same : Set.EqOn new bytes changedᶜ) (clear : ∀ x, a ≤ x → x < a + 16 → x ∉ changed) : InUse new maps a := by
  have sized : size new a = size bytes a := size_frame same fun x low high => clear x low (by omega)
  have flagged : isFree new a = isFree bytes a :=
    isFree_frame same fun x low high => clear x (by omega) (by omega)
  obtain ⟨mapping, bounded, used⟩ := block
  constructor
  · rwa [sized]
  · rwa [sized]
  · rwa [flagged]

/-- A change of links keeps the blocks. -/
theorem InUse.links {maps : List (Nat × Nat)} {new : Memory} (block : InUse bytes maps a)
    (same : Set.EqOn new bytes (linkCells nodes)ᶜ) (beside : ∀ n ∈ nodes, a = n ∨ Apart a n) :
    InUse new maps a := by
  apply block.frame same
  rintro x low high ⟨n, member, inside⟩
  have apart := beside n member
  unfold Apart at apart
  omega

/-- Bytes may change away from the blocks, and more memory may be mapped. -/
theorem Listed.frame {changed : Set Nat} (listed : Listed s nodes) (head : t.globals.head = s.globals.head)
    (same : Set.EqOn t.bytes s.bytes changedᶜ) (clear : ∀ a ∈ nodes, ∀ x, a ≤ x → x < a + 32 → x ∉ changed)
    (maps : s.maps ⊆ t.maps) : Listed t nodes := by
  constructor
  · apply listed.chain.congr head
    · intro a member
      exact next_frame same fun x low high => clear a member x (by omega) (by omega)
    · intro a member
      exact prev_frame same fun x low high => clear a member x (by omega) (by omega)
  · intro a member
    have block := (listed.blocks a member).frame same fun x low high => clear a member x low (by omega)
    exact ⟨maps block.mapping, block.bounded, block.used⟩
  · exact listed.apart

/-- A block in front of the others is listed there. -/
theorem Listed.pushed (listed : Listed s nodes) (block : InUse s.bytes s.maps a) (proper : a ≠ 0)
    (apart : ∀ b ∈ nodes, Apart a b) (spliced : Spliced s.bytes bytes 0 a (nodes.headD 0)) :
    Listed (relink s bytes a) (a :: nodes) := by
  have fresh : a ∉ nodes := by
    intro member
    have overlap := apart a member
    unfold Apart at overlap
    omega
  have separate : ∀ x ∈ a :: nodes, ∀ y ∈ a :: nodes, x ≠ y → Apart x y := by
    intro x inX y inY distinct
    rcases List.mem_cons.mp inX with rfl | oldX
    · exact apart y ((List.mem_cons.mp inY).resolve_left (Ne.symm distinct))
    · rcases List.mem_cons.mp inY with rfl | oldY
      · exact (apart x oldX).symm
      · exact listed.apart x oldX y oldY distinct
  have same : Set.EqOn bytes s.bytes (linkCells (a :: nodes))ᶜ := by
    apply spliced.outside List.mem_cons_self (fun node => absurd rfl node)
    exact fun node => List.mem_cons_of_mem a (headD_mem node)
  have beside : ∀ x ∈ a :: nodes, ∀ n ∈ a :: nodes, x = n ∨ Apart x n := fun x inX n inN =>
    or_iff_not_imp_left.mpr (separate x inX n inN)
  constructor
  · have chain : (linksOf s.bytes s.globals.head).Represents 0 ([] ++ nodes) := listed.chain
    exact represents_splice chain listed.apart proper fresh apart spliced rfl
  · intro x member
    have was : InUse s.bytes s.maps x := by
      rcases List.mem_cons.mp member with rfl | member
      · exact block
      · exact listed.blocks x member
    exact was.links same (beside x member)
  · exact separate

/-- `addMetadata` puts a block in front of the others. -/
theorem Listed.addMetadata_returns (listed : Listed s nodes) (block : InUse s.bytes s.maps a) (proper : a ≠ 0)
    (apart : ∀ b ∈ nodes, Apart a b) :
    ∃ bytes, Returns (addMetadata a) s () (relink s bytes a) ∧ Listed (relink s bytes a) (a :: nodes) := by
  have small : a < 2 ^ 64 := by
    have bounded := block.bounded
    omega
  have mapped : s.Mapped a 32 := Or.inr (Or.inr ⟨_, block.mapping, Nat.le_refl a, by simp only; omega⟩)
  have head := listed.chain.head
  cases nodes with
  | nil =>
    have empty : s.globals.head = 0 := head
    refine ⟨_, ?_, listed.pushed block proper apart spliced_only⟩
    refine Returns.bind (getHead_returns.to empty) (Returns.ifPos rfl (Returns.bind setHead_returns ?_))
    apply Returns.bind (writeNext_returns (s := relink s s.bytes a) mapped)
    exact writePrev_returns (s := relink s _ a) mapped
  | cons first rest =>
    have isFirst : s.globals.head = first := head
    have node : first ≠ 0 := fun same => listed.chain.proper (by simp [same])
    have firstMapped := listed.mapped first List.mem_cons_self
    have spliced := spliced_pushed (m := s.bytes) node small (listed.small first List.mem_cons_self)
      (apart first List.mem_cons_self)
    refine ⟨_, ?_, listed.pushed block proper apart spliced⟩
    refine Returns.bind (getHead_returns.to isFirst) (Returns.ifNeg node ?_)
    apply Returns.bind (writePrev_returns firstMapped)
    apply Returns.bind (writeNext_returns (s := s.withBytes (setPrev s.bytes first a)) mapped)
    exact Returns.bind (writePrev_returns (s := s.withBytes _) mapped) setHead_returns

/-- The state in which a new mapping is handed to `addMetadata`. -/
def opened (s : State) (a n : Nat) : State :=
  { s with
    maps := (a, n + 32) :: s.maps
    bytes := setFree (setSize (fill s.bytes a (n + 32) 0) a n) a false
    replies := s.replies.tail }

/-- The new block is apart from all others. -/
theorem Listed.beside (listed : Listed s nodes) (can : s.CanMap a (n + 32)) : ∀ b ∈ nodes, Apart a b := by
  intro b member
  have clear := can.2.2.2.2 _ (listed.blocks b member).mapping
  unfold Apart
  simp only at clear
  omega

/-- A new mapping touches no block. -/
theorem Listed.map (listed : Listed s nodes) (can : s.CanMap a (n + 32)) : Listed (opened s a n) nodes := by
  obtain ⟨-, -, top, -, clear⟩ := can
  have same := (mapping_fields s.bytes a (n := n) (by omega)).2.2
  apply listed.frame (t := opened s a n) rfl same
  · intro b member x low high inside
    have beside := clear _ (listed.blocks b member).mapping
    simp only [mem_cells] at beside inside
    omega
  · exact List.subset_cons_self _ _

/-- The block in a new mapping. -/
theorem inUse_opened (can : s.CanMap a (n + 32)) : InUse (opened s a n).bytes (opened s a n).maps a := by
  have top := can.2.2.1
  obtain ⟨sized, flag, -⟩ := mapping_fields s.bytes a (n := n) (by omega)
  constructor
  · simp only [opened, sized]
    exact List.mem_cons_self
  · simp only [opened, sized]
    omega
  · exact flag

/-- `smalloc` of a large block returns null and changes nothing, or the block it
returns is listed first. -/
theorem Listed.mmapBlock_returns (listed : Listed s nodes) (size : Nat) :
    Returns (mmapBlock size) s 0 { s with replies := s.replies.tail } ∨
      ∃ a t, Returns (mmapBlock size) s (a + SOM) t ∧ Listed t (a :: nodes) := by
  rcases mmap_cases s (size + 32) with ⟨-, refused⟩ | ⟨-, a, granted, can⟩
  · exact Or.inl (Returns.bind refused (Returns.ifPos rfl Returns.pure))
  right
  have proper : a ≠ 0 := Nat.ne_of_gt can.1
  have differs : a ≠ mapFailed := by
    have top := can.2.2.1
    unfold mapFailed
    omega
  have header : ∀ t : State, t.maps = (a, size + 32) :: s.maps → t.Mapped a 32 := fun t maps =>
    Or.inr (Or.inr ⟨(a, size + 32), by simp [maps], Nat.le_refl a, by simp only; omega⟩)
  obtain ⟨bytes, adds, final⟩ := (listed.map can).addMetadata_returns (inUse_opened can) proper (listed.beside can)
  refine ⟨a, counted (relink (opened s a size) bytes a) size, ?_, final.chain, final.blocks, final.apart⟩
  refine Returns.bind granted (Returns.ifNeg differs ?_)
  apply Returns.bind (writeSize_returns (header _ rfl))
  apply Returns.bind (writeFree_returns (header _ rfl))
  apply Returns.bind adds
  exact Returns.bind updateStatistics_returns Returns.pure

/-- `removeMetadata` takes off the first block. -/
theorem removeMetadata_first (chain : (linksOf s.bytes s.globals.head).Represents 0 (a :: rest))
    (mapped : ∀ b ∈ a :: rest, s.Mapped b 32) (apart : ∀ b ∈ a :: rest, ∀ c ∈ a :: rest, b ≠ c → Apart b c) :
    ∃ bytes, Returns (removeMetadata a) s () (relink s bytes (rest.headD 0)) ∧
      (linksOf bytes (rest.headD 0)).Represents 0 rest ∧ Set.EqOn bytes s.bytes (linkCells rest)ᶜ := by
  have isHead : s.globals.head = a := chain.head
  have follows : next s.bytes a = rest.headD 0 := (chain.around (l := [])).1
  have mappedNext : rest.headD 0 ≠ 0 → (relink s s.bytes (rest.headD 0)).Mapped (rest.headD 0) 32 := fun node =>
    mapped _ (List.mem_cons_of_mem a (headD_mem node))
  refine ⟨_, ?_, represents_unlink (l := []) chain apart bypassed_first rfl, ?_⟩
  · refine Returns.bind (getHead_returns.to isHead) (Returns.ifPos rfl ?_)
    apply Returns.bind ((readNext_returns (mapped a List.mem_cons_self)).to follows)
    exact Returns.bind setHead_returns (unlinkFirst_returns mappedNext)
  · exact bypassed_first.outside (fun node => absurd rfl node) headD_mem

/-- The loop of `removeMetadata` finds nothing: the head is the same in every round.

The induction is on the blocks still to pass. -/
theorem removeMetadataLoop_misses {fuel : Nat} (front : List Nat)
    (chain : (linksOf s.bytes s.globals.head).Represents 0 (front ++ rest))
    (mapped : ∀ b ∈ rest, s.Mapped b 32) (other : s.globals.head ≠ a) (enough : rest.length < fuel) :
    Returns (removeMetadataLoop a fuel (rest.headD 0)) s () s := by
  induction rest generalizing front fuel with
  | nil =>
    obtain ⟨fuel, rfl⟩ : ∃ more, fuel = more + 1 := Nat.exists_eq_succ_of_ne_zero (Nat.ne_of_gt enough)
    exact Returns.ifPos rfl Returns.pure
  | cons b rest inductionHypothesis =>
    obtain ⟨fuel, rfl⟩ : ∃ more, fuel = more + 1 := ⟨fuel - 1, by omega⟩
    have node : b ≠ 0 := fun same => chain.proper (by simp [same])
    have follows : next s.bytes b = rest.headD 0 := chain.around.1
    have later : Returns (removeMetadataLoop a fuel (rest.headD 0)) s () s :=
      inductionHypothesis (front ++ [b]) (by simpa using chain)
        (fun c member => mapped c (List.mem_cons_of_mem b member)) (by simpa using enough)
    refine Returns.ifNeg node (Returns.bind getHead_returns (Returns.ifNeg other ?_))
    exact Returns.bind ((readNext_returns (mapped b List.mem_cons_self)).to follows) later

/-- `removeMetadata` changes nothing for a block that is not the first one. -/
theorem removeMetadata_other (chain : (linksOf s.bytes s.globals.head).Represents 0 nodes)
    (mapped : ∀ b ∈ nodes, s.Mapped b 32) (small : ∀ b ∈ nodes, b < 2 ^ 64) (member : a ∈ nodes)
    (other : s.globals.head ≠ a) : Returns (removeMetadata a) s () s := by
  have head := chain.head
  cases nodes with
  | nil => cases member
  | cons first rest =>
    have isFirst : s.globals.head = first := head
    have follows : next s.bytes first = rest.headD 0 := (chain.around (l := [])).1
    have enough : rest.length < loopBound := by
      have bound := represents_length chain small
      exact Nat.lt_of_succ_lt bound
    have misses := removeMetadataLoop_misses [first] chain (fun b inside => mapped b (List.mem_cons_of_mem _ inside))
      other enough
    refine Returns.bind getHead_returns (Returns.ifNeg other ?_)
    rw [isFirst]
    exact Returns.bind ((readNext_returns (mapped first List.mem_cons_self)).to follows) misses

/-- The state after a mapping was given back. -/
def unmapped (s : State) (a length : Nat) : State := { s with maps := s.maps.erase (a, length) }

/-- `sfree` marks a block, removes it from the list, and unmaps it. -/
theorem sfree_returns (block : InUse s.bytes s.maps a)
    (removes : Returns (removeMetadata a) (s.withBytes (setFree s.bytes a true)) () t)
    (maps : t.maps = s.maps) (sized : size t.bytes a = size s.bytes a) :
    Returns (sfree (a + SOM)) s () (unmapped t a (size s.bytes a + 32)) := by
  obtain ⟨mapping, bounded, used⟩ := block
  have header : ∀ t : State, t.maps = s.maps → t.Mapped a 32 := fun t maps =>
    Or.inr (Or.inr ⟨_, maps ▸ mapping, Nat.le_refl a, by simp only; omega⟩)
  have fits : wrap (size s.bytes a + 32) = size s.bytes a + 32 := wrap_eq (by omega)
  unfold sfree
  apply Returns.ifNeg (Nat.ne_of_gt (Nat.add_pos_right a (by decide)))
  simp only [SOM, Nat.add_sub_cancel]
  apply Returns.bind ((readFree_returns (header s rfl)).to used)
  apply Returns.ifNeg Bool.false_ne_true
  apply Returns.bind (writeFree_returns (header s rfl))
  apply Returns.bind removes
  apply Returns.bind ((readSize_returns (header t maps)).to sized)
  rw [fits]
  exact munmap_returns (maps ▸ mapping)

/-- The flag of a block is outside all links. -/
theorem Listed.marked (listed : Listed s nodes) (member : a ∈ nodes) :
    (linksOf (setFree s.bytes a true) s.globals.head).Represents 0 nodes := by
  have clear : ∀ b ∈ nodes, ∀ x, b + 16 ≤ x → x < b + 32 → x ∉ cells (a + 8) 1 := by
    intro b inside x low high
    have apart := listed.apart a member b inside
    unfold Apart at apart
    simp only [mem_cells]
    omega
  have head : (linksOf (setFree s.bytes a true) s.globals.head).head = (linksOf s.bytes s.globals.head).head := rfl
  apply listed.chain.congr head
  · exact fun b inside => next_frame setFree_outside fun x low high => clear b inside x low (by omega)
  · exact fun b inside => prev_frame setFree_outside fun x low high => clear b inside x (by omega) high

theorem size_marked : size (setFree bytes a true) a = size bytes a :=
  size_frame setFree_outside fun x low high => by
    simp only [mem_cells]
    omega

/-- `sfree` of the first block leaves the list of the others. -/
theorem Listed.sfree_first (listed : Listed s (a :: rest)) :
    ∃ t, Returns (sfree (a + SOM)) s () t ∧ Listed t rest := by
  have absent : a ∉ rest := (List.nodup_cons.mp listed.chain.distinct).1
  have apart : ∀ b ∈ rest, Apart a b := fun b member =>
    listed.apart a List.mem_cons_self b (List.mem_cons_of_mem a member) (ne_of_mem_of_not_mem member absent).symm
  have blocks : ∀ b ∈ rest, InUse s.bytes s.maps b := fun b member => listed.blocks b (List.mem_cons_of_mem a member)
  have others : ∀ b ∈ rest, ∀ c ∈ rest, b ≠ c → Apart b c := fun b inB c inC =>
    listed.apart b (List.mem_cons_of_mem a inB) c (List.mem_cons_of_mem a inC)
  obtain ⟨bytes, removes, chain, same⟩ := removeMetadata_first (s := s.withBytes (setFree s.bytes a true))
    (listed.marked List.mem_cons_self) listed.mapped listed.apart
  have sized : size bytes a = size s.bytes a :=
    (size_links same fun b member => Or.inr (apart b member)).trans size_marked
  refine ⟨_, sfree_returns (listed.blocks a List.mem_cons_self) removes rfl sized, chain, ?_, ?_⟩
  · intro b member
    have marked : InUse (setFree s.bytes a true) s.maps b := by
      apply (blocks b member).frame setFree_outside
      intro x low high
      have beside := apart b member
      unfold Apart at beside
      simp only [mem_cells]
      omega
    have kept : InUse bytes s.maps b := marked.links same fun c inside =>
      or_iff_not_imp_left.mpr (others b member c inside)
    refine ⟨?_, kept.bounded, kept.used⟩
    have other : (b, size bytes b + 32) ≠ (a, size s.bytes a + 32) := by
      intro equal
      obtain rfl := congrArg Prod.fst equal
      exact absent member
    exact (List.mem_erase_of_ne other).mpr kept.mapping
  · exact others

/-- Links that are closed lead to null or to mapped memory. -/
theorem Listed.exact (listed : Listed s nodes) : Exact ⟨s, nodes⟩ := by
  have reach : ∀ link, link = 0 ∨ link ∈ nodes → link = 0 ∨ s.Mapped link 32 := fun link =>
    Or.imp_right (listed.mapped link)
  constructor
  · exact listed.chain
  · apply reach
    by_cases empty : s.globals.head = 0
    · exact Or.inl empty
    · have head : s.globals.head = nodes.headD 0 := listed.chain.head
      exact Or.inr (head ▸ headD_mem (head ▸ empty))
  · intro a member
    have closed := listed.chain.closed member
    exact ⟨reach _ closed.1, reach _ closed.2⟩

/-- `sfree` of another block leaves a link to it. -/
theorem Listed.sfree_other (listed : Listed s nodes) (member : a ∈ nodes) (other : s.globals.head ≠ a) :
    ∃ t, Returns (sfree (a + SOM)) s () t ∧ ¬Exact ⟨t, nodes.erase a⟩ := by
  have proper : a ≠ 0 := fun same => listed.chain.proper (same ▸ member)
  have chain := listed.marked member
  have removes : Returns (removeMetadata a) (s.withBytes (setFree s.bytes a true)) () _ :=
    removeMetadata_other chain listed.mapped listed.small member other
  refine ⟨_, sfree_returns (listed.blocks a member) removes rfl size_marked, fun exact => ?_⟩
  have kept : (linksOf (setFree s.bytes a true) s.globals.head).Represents 0 (nodes.erase a) := exact.chain
  obtain ⟨front, back, rfl⟩ := List.append_of_mem member
  -- The block has one before it, which still leads to it.
  rcases List.eq_nil_or_concat front with rfl | ⟨more, b, rfl⟩
  · exact other listed.chain.head
  rw [List.concat_eq_append] at *
  have regroup : more ++ [b] ++ a :: back = more ++ b :: a :: back := by simp
  have leads : next (setFree s.bytes a true) b = a := (regroup ▸ chain).around.1
  have distinct := chain.distinct
  have differs : b ≠ a := by
    rintro rfl
    simp [List.nodup_append] at distinct
  have stays : b ∈ (more ++ [b] ++ a :: back).erase a := (List.mem_erase_of_ne differs).mpr (by simp)
  have gone : a ∉ (more ++ [b] ++ a :: back).erase a := distinct.not_mem_erase
  have closed : next (setFree s.bytes a true) b = 0 ∨ next (setFree s.bytes a true) b ∈ _ := (kept.closed stays).1
  rw [leads] at closed
  exact closed.elim proper gone

theorem perform_smalloc {p : Nat} (returns : Returns (mmapBlock n) sys.state p t) :
    perform (.smalloc n) sys = .ok ⟨t, if p = 0 then sys.live else (p - SOM) :: sys.live⟩ := by
  unfold perform
  simp only [show mmapBlock n sys.state = _ from returns]

theorem perform_sfree (returns : Returns (sfree (a + SOM)) sys.state () t) :
    perform (.sfree (a + SOM)) sys = .ok ⟨t, sys.live.erase a⟩ := by
  unfold perform
  simp only [show sfree (a + SOM) sys.state = _ from returns, Nat.add_sub_cancel]

/-- A request, and a removal from the head, leave the list of the blocks there are. -/
theorem Listed.perform_keeps (listed : Listed sys.state sys.live) (lastFirst : LastFirst call sys) :
    Ends (fun after => Listed after.state after.live) (fun _ => False) (perform call sys) := by
  cases call with
  | smalloc size =>
    rcases listed.mmapBlock_returns size with refused | ⟨a, t, returns, final⟩
    · rw [perform_smalloc refused]
      exact ⟨listed.chain, listed.blocks, listed.apart⟩
    · rw [perform_smalloc returns, if_neg (Nat.ne_of_gt (Nat.add_pos_right a (by decide))), Nat.add_sub_cancel]
      exact final
  | sfree p =>
    obtain ⟨s, live⟩ := sys
    obtain ⟨a, isHead, rfl⟩ := Option.map_eq_some_iff.mp lastFirst
    obtain ⟨rest, rfl⟩ := List.head?_eq_some_iff.mp isHead
    obtain ⟨t, returns, final⟩ := listed.sfree_first
    rw [perform_sfree returns, List.erase_cons_head]
    exact final

/-- A removal from elsewhere shows at once. -/
theorem Listed.exposes (listed : Listed sys.state sys.live) (legal : Legal call sys)
    (shown : Ends Exact (fun _ => False) (perform call sys)) : LastFirst call sys := by
  cases call with
  | smalloc size => trivial
  | sfree p =>
    obtain ⟨a, member, rfl⟩ := List.mem_map.mp legal
    by_cases same : sys.state.globals.head = a
    · have isHead : sys.live.headD 0 = a := listed.chain.head.symm.trans same
      obtain ⟨first, rest, blocks⟩ := List.exists_cons_of_ne_nil (List.ne_nil_of_mem member)
      rw [blocks] at isHead
      simp [LastFirst, blocks, ← isHead]
    · obtain ⟨t, returns, wrong⟩ := listed.sfree_other member same
      rw [perform_sfree returns] at shown
      exact absurd shown wrong

/-- From an empty list on, the list is that of the blocks there are, and has no link
to memory that was unmapped, throughout exactly those runs that free the latest
block first. -/
theorem mmapList_iff {calls : List Call} (empty : s.globals.head = 0) (legal : Obeys perform Legal calls ⟨s, []⟩) :
    Obeys perform LastFirst calls ⟨s, []⟩ ↔
      ∀ n, Ends Exact (fun _ => False) (execute perform (calls.take n) ⟨s, []⟩) := by
  have start : Listed s [] := ⟨represents_nil.mpr empty, by simp, by simp⟩
  apply obeys_iff_given (I := fun sys => Listed sys.state sys.live) _ _ _ start legal
  · exact fun sys listed => listed.exact
  · exact fun call sys listed _ lastFirst => listed.perform_keeps lastFirst
  · exact fun call sys listed legal shown => listed.exposes legal shown

/-- A process before its first request, which is granted these addresses. -/
def process (addresses : List Nat) : State where
  bytes := fun _ => 0
  heapStart := 4096
  brk := 4096
  maps := []
  replies := addresses.map fun a => .grant a fun _ => 0
  strayUnmaps := []
  globals := ⟨⟨0, 0, 0, 0, 0⟩, 0⟩

/-- Two blocks, and the latest one freed first. -/
def lastFirstCalls : List Call :=
  [.smalloc 131072, .smalloc 131072, .sfree 2097184, .smalloc 262144, .sfree 3145760, .sfree 1048608]

/-- Three mappings, each freed while it is the latest one. -/
theorem mmapList_iff_sample : Obeys perform LastFirst lastFirstCalls ⟨process [1048576, 2097152, 3145728], []⟩ ↔
    ∀ n, Ends Exact (fun _ => False)
      (execute perform (lastFirstCalls.take n) ⟨process [1048576, 2097152, 3145728], []⟩) :=
  mmapList_iff rfl (by decide +kernel)

/-- Two blocks, and the first one freed first. -/
def firstFirstCalls : List Call := [.smalloc 131072, .smalloc 131072, .sfree 1048608, .sfree 2097184]

/-- The first block stays in the list when it is unmapped, and the removal of the
second one then writes to it. -/
theorem mmapList_keeps_unmapped : Obeys perform Legal firstFirstCalls ⟨process [1048576, 2097152], []⟩ ∧
    fault (execute perform firstFirstCalls ⟨process [1048576, 2097152], []⟩) = some .segv ∧
    ¬∀ n, Ends Exact (fun _ => False)
      (execute perform (firstFirstCalls.take n) ⟨process [1048576, 2097152], []⟩) := by
  refine ⟨by decide +kernel, by decide +kernel, fun throughout => ?_⟩
  have closes : ∀ sys : System, Exact sys →
      (sys.live.all fun a => next sys.state.bytes a = 0 ∨ next sys.state.bytes a ∈ sys.live) = true := by
    intro sys exact
    exact List.all_eq_true.mpr fun a member => decide_eq_true (exact.chain.closed member).1
  exact not_ends _ closes (by decide +kernel) (throughout 3)

end OperatingSystems.Malloc3.MmapList
