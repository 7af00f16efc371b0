import OperatingSystems.Malloc2.Source
import OperatingSystems.RecordLinks

/-!
# The list of blocks by address

The blocks lie one above the other, each a header and a payload, with gaps
where others moved the break. Since a new block lies above all others, the list
by address grows at its end, and the first free block that is large enough is
the lowest one.
-/

namespace OperatingSystems.Malloc2

open Bytes Process MallocMetadata DoublyLinked

/-- A block that was carved. -/
structure Block where
  address : Nat
  size : Nat
  free : Bool
deriving DecidableEq, Repr

/-- A free block that is large enough. -/
def Fits (n : Nat) (b : Block) : Prop := b.free = true ∧ n ≤ b.size

instance (n : Nat) (b : Block) : Decidable (Fits n b) := inferInstanceAs (Decidable (_ ∧ _))

/-- The cells of the headers. -/
def headers (blocks : List Block) : Set Nat := {x | ∃ b ∈ blocks, b.address ≤ x ∧ x < b.address + 32}

/-- The exact head and counters of these blocks. -/
def tally (blocks : List Block) : BlockList where
  head := (blocks.map Block.address).headD 0
  allocatedBlocks := blocks.length
  freeBlocks := blocks.countP Block.free
  allocatedBytes := (blocks.map Block.size).sum
  freeBytes := ((blocks.filter Block.free).map Block.size).sum
  metadataBytes := 32 * blocks.length

/-- The list holds these blocks, which are all that were carved, by address, and
the counters are theirs. -/
structure Sound (s : State) (blocks : List Block) : Prop where
  chain : (linksOf s.bytes s.globals.blockList.head).Represents 0 (blocks.map Block.address)
  stored : ∀ b ∈ blocks, size s.bytes b.address = b.size ∧ isFree s.bytes b.address = b.free
  ordered : blocks.Pairwise fun x y => x.address + 32 + x.size ≤ y.address
  within : ∀ b ∈ blocks, s.heapStart ≤ b.address ∧ b.address + 32 + b.size ≤ s.brk
  proper : 0 < s.heapStart ∧ s.heapStart ≤ s.brk ∧ s.brk < 2 ^ 64 - 1
  counters : s.globals.blockList = tally blocks
  carved : s.globals.carved = blocks.map fun b => (b.address, b.size + 32)

variable {s t : State} {blocks front back : List Block} {b : Block} {a n : Nat}

/-- Blocks one above the other fit between the lowest and the highest address. -/
theorem total_le {low high : Nat} (le : low ≤ high)
    (ordered : blocks.Pairwise fun x y => x.address + 32 + x.size ≤ y.address)
    (within : ∀ b ∈ blocks, low ≤ b.address ∧ b.address + 32 + b.size ≤ high) :
    low + 32 * blocks.length + (blocks.map Block.size).sum ≤ high := by
  induction blocks generalizing low with
  | nil => simpa using le
  | cons b blocks inductionHypothesis =>
    obtain ⟨above, ordered⟩ := List.pairwise_cons.mp ordered
    have here := within b (by simp)
    have behind : ∀ c ∈ blocks, b.address + 32 + b.size ≤ c.address ∧ c.address + 32 + c.size ≤ high :=
      fun c member => ⟨above c member, (within c (by simp [member])).2⟩
    have rest := inductionHypothesis here.2 ordered behind
    rw [List.length_cons, List.map_cons, List.sum_cons]
    omega

/-- Part of the blocks has part of the bytes. -/
theorem free_le (blocks : List Block) :
    ((blocks.filter Block.free).map Block.size).sum ≤ (blocks.map Block.size).sum := by
  induction blocks with
  | nil => simp
  | cons b blocks inductionHypothesis =>
    cases free : b.free <;> simp [free] <;> omega

namespace Sound

/-- No counter overflows. -/
theorem total (sound : Sound s blocks) :
    32 * blocks.length + (blocks.map Block.size).sum < 2 ^ 64 - 1 := by
  have bound := total_le sound.proper.2.1 sound.ordered sound.within
  have := sound.proper
  omega

/-- A header is accessible. -/
theorem header (sound : Sound s blocks) (member : b ∈ blocks) : s.Mapped b.address 32 := by
  have place := sound.within b member
  exact Machine.mapped_heap place.1 (by omega)

theorem nonzero (sound : Sound s blocks) (member : b ∈ blocks) : b.address ≠ 0 := by
  have place := sound.within b member
  have := sound.proper
  omega

/-- Two blocks lie apart. -/
theorem apart (sound : Sound s blocks) {c : Block} (inB : b ∈ blocks) (inC : c ∈ blocks)
    (other : b ≠ c) : b.address + 32 + b.size ≤ c.address ∨ c.address + 32 + c.size ≤ b.address := by
  have symmetric : Std.Symm fun x y : Block =>
      x.address + 32 + x.size ≤ y.address ∨ y.address + 32 + y.size ≤ x.address := ⟨fun _ _ => Or.symm⟩
  have either : blocks.Pairwise fun x y : Block =>
      x.address + 32 + x.size ≤ y.address ∨ y.address + 32 + y.size ≤ x.address :=
    sound.ordered.imp Or.inl
  exact either.forall inB inC other

/-- A block is known by its address. -/
theorem unique (sound : Sound s blocks) {c : Block} (inB : b ∈ blocks) (inC : c ∈ blocks)
    (same : b.address = c.address) : b = c := by
  by_contra other
  have := sound.apart inB inC other
  omega

/-- The records lie apart. -/
theorem separate (sound : Sound s blocks) :
    ∀ x ∈ blocks.map Block.address, ∀ y ∈ blocks.map Block.address, x ≠ y → Apart x y := by
  rintro x inX y inY other
  obtain ⟨b, inB, rfl⟩ := List.mem_map.mp inX
  obtain ⟨c, inC, rfl⟩ := List.mem_map.mp inY
  have clear := sound.apart inB inC fun same => other (same ▸ rfl)
  unfold Apart
  omega

theorem length_lt (sound : Sound s blocks) : blocks.length < loopBound := by
  have := sound.total
  unfold loopBound
  omega

end Sound

/-- From any block on the search finds the first one that fits. -/
theorem searchFreeBlockLoop_cases (sound : Sound s (front ++ back)) (fuel : Nat)
    (enough : back.length < fuel) :
    ((∀ b ∈ back, ¬Fits n b) ∧
      Returns (searchFreeBlockLoop n fuel ((back.map Block.address).headD 0)) s 0 s) ∨
    ∃ passed b rest, back = passed ++ b :: rest ∧ Fits n b ∧ (∀ c ∈ passed, ¬Fits n c) ∧
      Returns (searchFreeBlockLoop n fuel ((back.map Block.address).headD 0)) s b.address s := by
  induction back generalizing front fuel with
  | nil =>
    obtain ⟨fuel, rfl⟩ : ∃ more, fuel = more + 1 := ⟨fuel - 1, by simp at enough; omega⟩
    left
    constructor
    · simp
    · exact Returns.ifPos rfl Returns.pure
  | cons b back inductionHypothesis =>
    obtain ⟨fuel, rfl⟩ : ∃ more, fuel = more + 1 := ⟨fuel - 1, by simp at enough; omega⟩
    have member : b ∈ front ++ b :: back := by simp
    obtain ⟨sized, flag⟩ := sound.stored b member
    have mapped := sound.header member
    have chain := sound.chain
    rw [List.map_append, List.map_cons] at chain
    have opening : ∀ {result : Nat},
        Returns (if b.free = true ∧ n ≤ b.size then Pure.pure b.address else do
          let next ← readNext b.address
          searchFreeBlockLoop n fuel next) s result s →
        Returns (searchFreeBlockLoop n (fuel + 1) (((b :: back).map Block.address).headD 0)) s result s := by
      intro result run
      apply Returns.ifNeg (sound.nonzero member)
      apply Returns.bind ((readFree_returns mapped).to flag)
      exact Returns.bind ((readSize_returns mapped).to sized) run
    by_cases fits : Fits n b
    · right
      exact ⟨[], b, back, rfl, fits, by simp, opening (Returns.ifPos fits Returns.pure)⟩
    · have regroup : front ++ b :: back = (front ++ [b]) ++ back := by simp
      have follows : next s.bytes b.address = (back.map Block.address).headD 0 := chain.around.1
      have moves : ∀ {result : Nat},
          Returns (searchFreeBlockLoop n fuel ((back.map Block.address).headD 0)) s result s →
          Returns (searchFreeBlockLoop n (fuel + 1) (((b :: back).map Block.address).headD 0)) s
            result s := by
        intro result run
        exact opening (Returns.ifNeg fits (Returns.bind ((readNext_returns mapped).to follows) run))
      rcases inductionHypothesis (regroup ▸ sound) fuel (by simpa using enough) with
        ⟨none, run⟩ | ⟨passed, c, rest, split, found, before, run⟩
      · left
        constructor
        · intro c member
          rcases List.mem_cons.mp member with rfl | member
          · exact fits
          · exact none c member
        · exact moves run
      · right
        refine ⟨b :: passed, c, rest, by rw [split]; rfl, found, ?_, moves run⟩
        intro d member
        rcases List.mem_cons.mp member with rfl | member
        · exact fits
        · exact before d member

/-- The search finds the lowest free block that is large enough. -/
theorem searchFreeBlock_cases (sound : Sound s blocks) (n : Nat) :
    ((∀ b ∈ blocks, ¬Fits n b) ∧ Returns (searchFreeBlock n) s 0 s) ∨
    ∃ front b back, blocks = front ++ b :: back ∧ Fits n b ∧ (∀ c ∈ front, ¬Fits n c) ∧
      Returns (searchFreeBlock n) s b.address s := by
  have head : Returns getHead s ((blocks.map Block.address).headD 0) s := by
    have known : s.globals.blockList.head = (blocks.map Block.address).headD 0 := by
      rw [sound.counters]
      rfl
    rw [← known]
    rfl
  have whole : Sound s ([] ++ blocks) := sound
  rcases searchFreeBlockLoop_cases (n := n) whole loopBound sound.length_lt with
    ⟨none, run⟩ | ⟨front, b, back, split, fits, before, run⟩
  · exact Or.inl ⟨none, head.bind run⟩
  · exact Or.inr ⟨front, b, back, split, fits, before, head.bind run⟩

end OperatingSystems.Malloc2
