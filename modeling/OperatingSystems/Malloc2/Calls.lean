import OperatingSystems.Malloc2.Blocks
import OperatingSystems.Payloads

/-!
# What the four functions do

Each function returns from every sound state. A request is refused, served by
the lowest free block that is large enough, or served by a new block; which of
the three follows from the blocks and the next answer of the system.
-/

namespace OperatingSystems.Malloc2

open Bytes Process MallocMetadata DoublyLinked Payloads

variable {s t : State} {old new blocks front back : List Block} {b : Block} {a n p : Nat} {m : Memory}

/-- Zeroed cells load as zero. -/
theorem load_zero {width : Nat} (zero : ∀ x, a ≤ x → x < a + width → m x = 0) : load m a width = 0 := by
  rw [load_digits m a width 0 fun i inside => ?_, Nat.zero_mod]
  rw [zero (a + i) (by omega) (by omega)]
  simp

/-- The header that `smalloc` writes into zeroed memory. -/
theorem header_written (small : n < 2 ^ 64) (zero : ∀ x, a ≤ x → x < a + 32 → m x = 0) :
    next (setSize (setFree m a false) a n) a = 0 ∧ prev (setSize (setFree m a false) a n) a = 0 ∧
      size (setSize (setFree m a false) a n) a = n ∧
      isFree (setSize (setFree m a false) a n) a = false ∧
      Set.EqOn (setSize (setFree m a false) a n) m (cells a 16)ᶜ := by
  have outside : Set.EqOn (setSize (setFree m a false) a n) m (cells a 16)ᶜ := by
    intro x out
    rw [setSize_outside fun cell => out (by simp only [mem_cells] at cell ⊢; omega),
      setFree_outside fun cell => out (by simp only [mem_cells] at cell ⊢; omega)]
  have noNext : next m a = 0 := load_zero fun x low high => zero x (by omega) (by omega)
  have noPrev : prev m a = 0 := load_zero fun x low high => zero x (by omega) (by omega)
  refine ⟨?_, ?_, size_setSize small, ?_, outside⟩
  · rw [next_frame outside fun x low high cell => by simp only [mem_cells] at cell; omega, noNext]
  · rw [prev_frame outside fun x low high cell => by simp only [mem_cells] at cell; omega, noPrev]
  · rw [isFree_frame setSize_outside fun x low high cell => by simp only [mem_cells] at cell; omega,
      isFree_setFree]

/-- A step that moves no bytes but those of headers and of a new block, and
keeps the heap where it started. -/
structure Evolves (s : State) (old : List Block) (t : State) (new : List Block) : Prop where
  sound : Sound t new
  start : t.heapStart = s.heapStart
  frame : Set.EqOn t.bytes s.bytes (headers old ∪ Set.Ici s.brk)ᶜ

/-- The memory after `smalloc` wrote the header of a new block, before the block
is linked. -/
structure Carved (s : State) (blocks : List Block) (a n : Nat) (v : State) : Prop where
  start : v.heapStart = s.heapStart
  above : s.brk ≤ a
  brk : v.brk = a + (n + 32)
  top : a + (n + 32) < 2 ^ 64 - 1
  lower : ∀ x, x < a → v.bytes x = s.bytes x
  noNext : next v.bytes a = 0
  noPrev : prev v.bytes a = 0
  sized : size v.bytes a = n
  flag : isFree v.bytes a = false
  counters : v.globals.blockList = s.globals.blockList.update 1 0 n 0 32
  carved : v.globals.carved = s.globals.carved ++ [(a, n + 32)]

namespace Carved

variable {v : State}

/-- The headers lie below the new block. -/
theorem below (carved : Carved s blocks a n v) (sound : Sound s blocks) (member : b ∈ blocks) :
    b.address + 32 + b.size ≤ a := by
  have := sound.within b member
  have := carved.above
  omega

/-- Every block lies below the new one. -/
theorem under (carved : Carved s blocks a n v) (sound : Sound s blocks) :
    ∀ x ∈ blocks.map Block.address, x + 32 ≤ a := by
  intro x member
  obtain ⟨b, listed, rfl⟩ := List.mem_map.mp member
  have := carved.below sound listed
  omega

/-- Below the new block nothing has changed. -/
theorem kept (carved : Carved s blocks a n v) : Set.EqOn v.bytes s.bytes (Set.Ici a)ᶜ :=
  fun x out => carved.lower x (by simpa using out)

/-- The list is still the one of the blocks. -/
theorem chained (carved : Carved s blocks a n v) (sound : Sound s blocks) :
    (linksOf v.bytes v.globals.blockList.head).Represents 0 (blocks.map Block.address) := by
  have first : v.globals.blockList.head = s.globals.blockList.head := by
    rw [carved.counters]
    rfl
  refine sound.chain.congr first (fun x member => ?_) (fun x member => ?_)
  · have := carved.under sound x member
    exact next_frame carved.kept fun y low high cell => by simp only [Set.mem_Ici] at cell; omega
  · have := carved.under sound x member
    exact prev_frame carved.kept fun y low high cell => by simp only [Set.mem_Ici] at cell; omega

/-- `addMetadata` puts the new block at the end of the list. -/
theorem spliced (carved : Carved s blocks a n v) (sound : Sound s blocks) :
    ∃ final head, Returns (addMetadata a) v () (relinked v final head) ∧
      (linksOf final head).Represents 0 (blocks.map Block.address ++ [a]) ∧
      Set.EqOn final v.bytes (linkCells (blocks.map Block.address ++ [a]))ᶜ := by
  have proper := sound.proper
  have above := carved.above
  have top := carved.top
  have under := carved.under sound
  have chain := carved.chained sound
  have mapped : ∀ x ∈ blocks.map Block.address, v.Mapped x 32 := by
    intro x member
    obtain ⟨b, listed, rfl⟩ := List.mem_map.mp member
    have := sound.within b listed
    exact Machine.mapped_heap (by rw [carved.start]; omega) (by rw [carved.brk]; omega)
  have here : v.Mapped a 32 :=
    Machine.mapped_heap (by rw [carved.start]; omega) (by rw [carved.brk]; omega)
  obtain ⟨final, links, spliced⟩ := addMetadata_appends chain mapped here under (by omega) carved.noNext
    carved.noPrev
  refine ⟨final, _, links, ?_, ?_⟩
  · have behind : (linksOf v.bytes v.globals.blockList.head).Represents 0
        (blocks.map Block.address ++ []) := by simpa using chain
    refine represents_splice behind (by simpa using sound.separate) (by omega)
      (fun listed => ?_) (fun x member => ?_) spliced rfl
    · have := under a (by simpa using listed)
      omega
    · exact Or.inr (under x (by simpa using member))
  · exact spliced.outside (by simp) (fun node => List.mem_append_left _ (getLastD_mem node))
      fun node => absurd rfl node

/-- Linking touches no size and no flag, neither of a block nor of the new one. -/
theorem stored (carved : Carved s blocks a n v) (sound : Sound s blocks) {final : Memory}
    (outside : Set.EqOn final v.bytes (linkCells (blocks.map Block.address ++ [a]))ᶜ) :
    ∀ c ∈ blocks ++ [(⟨a, n, false⟩ : Block)],
      size final c.address = c.size ∧ isFree final c.address = c.free := by
  have fresh : ∀ c ∈ blocks, ∀ x, c.address ≤ x → x < c.address + 16 →
      x ∉ linkCells (blocks.map Block.address ++ [a]) := by
    rintro c member x low high ⟨y, listed, inside⟩
    have lower := carved.below sound member
    rcases List.mem_append.mp listed with known | same
    · by_cases own : c.address = y
      · omega
      · have := sound.separate c.address (List.mem_map_of_mem member) y known own
        unfold Apart at this
        omega
    · have := List.mem_singleton.mp same
      omega
  have own : ∀ x, a ≤ x → x < a + 16 → x ∉ linkCells (blocks.map Block.address ++ [a]) := by
    rintro x low high ⟨y, listed, inside⟩
    rcases List.mem_append.mp listed with known | same
    · have := carved.under sound y known
      omega
    · have := List.mem_singleton.mp same
      omega
  intro c member
  rcases List.mem_append.mp member with listed | same
  · obtain ⟨sized, flag⟩ := sound.stored c listed
    have lower := carved.below sound listed
    have same : Set.EqOn final s.bytes (Set.Ici a ∪ linkCells (blocks.map Block.address ++ [a]))ᶜ := by
      intro x out
      rw [Set.mem_compl_iff, Set.mem_union, not_or] at out
      exact (outside out.2).trans (carved.kept out.1)
    have clear : ∀ x, c.address ≤ x → x < c.address + 16 →
        x ∉ Set.Ici a ∪ linkCells (blocks.map Block.address ++ [a]) := by
      rintro x low high (above | link)
      · simp only [Set.mem_Ici] at above
        omega
      · exact fresh c listed x low high link
    exact ⟨(size_frame same fun x low high => clear x low (by omega)).trans sized,
      (isFree_frame same fun x low high => clear x (by omega) (by omega)).trans flag⟩
  · rw [List.mem_singleton.mp same]
    exact ⟨(size_frame (a := a) outside fun x low high => own x low (by omega)).trans carved.sized,
      (isFree_frame (a := a) outside fun x low high => own x (by omega) (by omega)).trans carved.flag⟩

/-- Linking the new block gives a sound heap. -/
theorem link (carved : Carved s blocks a n v) (sound : Sound s blocks) :
    ∃ t, Returns (addMetadata a) v () t ∧ Sound t (blocks ++ [⟨a, n, false⟩]) ∧
      t.heapStart = v.heapStart ∧
      Set.EqOn t.bytes v.bytes (linkCells (blocks.map Block.address ++ [a]))ᶜ := by
  have proper := sound.proper
  have above := carved.above
  have top := carved.top
  obtain ⟨final, head, links, relinks, outside⟩ := carved.spliced sound
  have addresses : (blocks ++ [(⟨a, n, false⟩ : Block)]).map Block.address = blocks.map Block.address ++ [a] := by
    simp
  refine ⟨relinked v final head, links, ?_, rfl, outside⟩
  constructor
  · rw [addresses]
    exact relinks
  · exact carved.stored sound outside
  · refine List.pairwise_append.mpr ⟨sound.ordered, List.pairwise_singleton _ _, ?_⟩
    intro c listed d same
    rw [List.mem_singleton.mp same]
    exact carved.below sound listed
  · intro c member
    simp only [relinked, carved.start, carved.brk]
    rcases List.mem_append.mp member with listed | same
    · have := sound.within c listed
      omega
    · rw [List.mem_singleton.mp same]
      simp only
      omega
  · simp only [relinked, carved.start, carved.brk]
    omega
  · have total := total_le proper.2.1 sound.ordered sound.within
    have counted : ({ s.globals.blockList with head := head } : BlockList).update 1 0 n 0 32 =
        tally (blocks ++ [⟨a, n, false⟩]) := by
      apply tally_carve ⟨a, n, false⟩ rfl (by simp only; omega)
      · rw [sound.counters]
        rfl
      · rw [addresses]
        exact relinks.head
    rw [← counted]
    simp only [relinked, carved.counters]
    rfl
  · simp only [relinked, carved.carved, sound.carved, List.map_append, List.map_cons, List.map_nil]

end Carved

/-- A new block at the end of the list. -/
theorem carveBlock_cases (sound : Sound s blocks) (small : n ≤ 100000000) :
    (¬Grants s (n + 32) ∧ Returns (carveBlock n) s 0 { s with replies := s.replies.tail }) ∨
    Grants s (n + 32) ∧ ∃ a t, s.brk ≤ a ∧ Returns (carveBlock n) s (a + 32) t ∧
      Evolves s blocks t (blocks ++ [⟨a, n, false⟩]) ∧
      ∀ x, a + 32 ≤ x → x < a + 32 + n → t.bytes x = 0 := by
  rcases sbrk_cases s (n + 32) with ⟨denied, run⟩ | ⟨granted, a, can, run⟩
  · left
    exact ⟨denied, Returns.bind run (Returns.ifPos rfl Returns.pure)⟩
  right
  obtain ⟨above, top⟩ := can
  obtain ⟨u, isNext⟩ : ∃ u : State, u = { s with
      brk := a + (n + 32)
      bytes := fill s.bytes a (n + 32) 0
      replies := s.replies.tail
      globals := { s.globals with carved := s.globals.carved ++ [(a, n + 32)] } } := ⟨_, rfl⟩
  rw [← isNext] at run
  have zero : ∀ x, a ≤ x → x < a + (n + 32) → u.bytes x = 0 := by
    intro x low high
    rw [isNext]
    have cell := fill_inside s.bytes a (n + 32) (x - a) 0 (by omega)
    rwa [show a + (x - a) = x by omega] at cell
  have filled : Set.EqOn u.bytes s.bytes (cells a (n + 32))ᶜ := by
    rw [isNext]
    exact fill_outside s.bytes a (n + 32) 0
  have proper := sound.proper
  have room : u.Mapped a 32 := by
    rw [isNext]
    exact Machine.mapped_heap (by simp only; omega) (by simp only; omega)
  obtain ⟨noNext, noPrev, sized, flag, header⟩ := header_written (a := a) (n := n) (m := u.bytes) (by omega)
    fun x low high => zero x low (by omega)
  obtain ⟨v, isWritten⟩ : ∃ v : State, v = { u with
      bytes := setSize (setFree u.bytes a false) a n
      globals := { u.globals with blockList := u.globals.blockList.update 1 0 n 0 SOM } } := ⟨_, rfl⟩
  have written : v.bytes = setSize (setFree u.bytes a false) a n := by rw [isWritten]
  rw [← written] at noNext noPrev sized flag header
  have lower : ∀ x, x < a → v.bytes x = s.bytes x := by
    intro x low
    rw [header fun cell => by simp only [mem_cells] at cell; omega]
    exact filled fun cell => by simp only [mem_cells] at cell; omega
  have carved : Carved s blocks a n v := by
    refine ⟨?_, above, ?_, top, lower, noNext, noPrev, sized, flag, ?_, ?_⟩ <;>
      rw [isWritten, isNext]
  obtain ⟨t, links, after, start, outside⟩ := carved.link sound
  refine ⟨granted, a, t, above, ?_, ⟨after, start.trans carved.start, ?_⟩, ?_⟩
  · refine Returns.bind run (Returns.ifNeg (by unfold mapFailed; omega) ?_)
    apply Returns.bind (writeFree_returns room)
    refine Returns.bind (writeSize_returns (s := u.withBytes _) room) ?_
    apply Returns.bind (t := v) (x := ()) (by rw [isWritten]; rfl)
    exact Returns.bind links Returns.pure
  · intro x out
    rw [Set.mem_compl_iff, Set.mem_union, not_or] at out
    have low : x < s.brk := by simpa using out.2
    rw [outside, lower x (by omega)]
    rintro ⟨y, listed, inside⟩
    rcases List.mem_append.mp listed with known | same
    · obtain ⟨c, member, rfl⟩ := List.mem_map.mp known
      exact out.1 ⟨c, member, by omega, by omega⟩
    · have := List.mem_singleton.mp same
      omega
  · intro x low high
    rw [outside, header fun cell => by simp only [mem_cells] at cell; omega, zero x (by omega) (by omega)]
    rintro ⟨y, listed, inside⟩
    rcases List.mem_append.mp listed with known | same
    · obtain ⟨c, member, rfl⟩ := List.mem_map.mp known
      have := carved.below sound member
      omega
    · have := List.mem_singleton.mp same
      omega

/-- The payloads in the hands of the client, each with its capacity. -/
def owned (blocks : List Block) : List (Nat × Nat) :=
  (blocks.filter fun b => !b.free).map fun b => (b.address + 32, b.size)

theorem mem_owned {o : Nat × Nat} :
    o ∈ owned blocks ↔ ∃ b ∈ blocks, b.free = false ∧ o = (b.address + 32, b.size) := by
  constructor
  · intro listed
    obtain ⟨b, kept, rfl⟩ := List.mem_map.mp listed
    obtain ⟨member, used⟩ := List.mem_filter.mp kept
    exact ⟨b, member, by simpa using used, rfl⟩
  · rintro ⟨b, member, used, rfl⟩
    exact List.mem_map_of_mem (List.mem_filter.mpr ⟨member, by simp [used]⟩)

/-- The payload of a block is no header, its own or another's. -/
theorem Sound.payload_clear (sound : Sound s blocks) (member : b ∈ blocks) {x : Nat}
    (low : b.address + 32 ≤ x) (high : x < b.address + 32 + b.size) :
    x ∉ headers blocks ∪ Set.Ici s.brk := by
  have place := sound.within b member
  rintro (⟨c, listed, inside⟩ | above)
  · by_cases same : b = c
    · subst same
      omega
    · have := sound.apart member listed same
      omega
  · simp only [Set.mem_Ici] at above
    omega

/-- A step exchanges payloads when it exchanges the blocks in use. -/
theorem Evolves.exchange (evolves : Evolves s old t new) (sound : Sound s old)
    {taken given rest : List (Nat × Nat)} (before : (owned old).Perm (taken ++ rest))
    (after : (owned new).Perm (given ++ rest)) :
    Exchange s.bytes t.bytes (owned old) (owned new) taken given := by
  refine ⟨rest, before, after, ?_⟩
  rintro x ⟨o, listed, low, high⟩
  obtain ⟨b, member, _, rfl⟩ := mem_owned.mp (before.mem_iff.mpr (List.mem_append_right _ listed))
  exact evolves.frame (sound.payload_clear member low (by simpa using high))

/-- Every block is still there, with its size. -/
def Extends (old new : List Block) : Prop := ∀ b ∈ old, ∃ c ∈ new, c.address = b.address ∧ c.size = b.size

theorem Extends.refl (blocks : List Block) : Extends blocks blocks := fun b member => ⟨b, member, rfl, rfl⟩

theorem Extends.trans {later : List Block} (first : Extends old new) (second : Extends new later) :
    Extends old later := by
  intro b member
  obtain ⟨c, inNew, address, size⟩ := first b member
  obtain ⟨d, inLater, same, equal⟩ := second c inNew
  exact ⟨d, inLater, same.trans address, equal.trans size⟩

theorem Extends.mark (front : List Block) (b : Block) (back : List Block) (flag : Bool) :
    Extends (front ++ b :: back) (front ++ b.mark flag :: back) := by
  intro c member
  rcases List.mem_append.mp member with inFront | inRest
  · exact ⟨c, by simp [inFront], rfl, rfl⟩
  · rcases List.mem_cons.mp inRest with rfl | inBack
    · exact ⟨c.mark flag, by simp, rfl, rfl⟩
    · exact ⟨c, by simp [inBack], rfl, rfl⟩

/-- A block in use was handed out, one that was there or a new one. -/
structure Grant (s : State) (old : List Block) (n p : Nat) (t : State) (new : List Block) : Prop where
  evolves : Evolves s old t new
  block : ∃ c ∈ new, p = c.address + 32 ∧ c.free = false ∧ n ≤ c.size ∧
    (owned new).Perm ((p, c.size) :: owned old)
  others : ∀ b ∈ old, ¬Fits n b → b ∈ new
  extends_ : Extends old new

/-- Which block serves a request: the lowest that fits, and a new one only when
none does. -/
def FirstFit (s : State) (blocks : List Block) (n p : Nat) (t : State) : Prop :=
  (∀ b ∈ blocks, Fits n b → (∀ c ∈ blocks, Fits n c → b.address ≤ c.address) →
    p = b.address + 32 ∧ t.brk = s.brk ∧ t.globals.carved = s.globals.carved) ∧
  (t.brk ≠ s.brk → ∀ b ∈ blocks, ¬Fits n b)

/-- The system did not give what no free block could. -/
def Denied (s : State) (blocks : List Block) (n : Nat) : Prop :=
  n = 0 ∨ 100000000 < n ∨ ((∀ b ∈ blocks, ¬Fits n b) ∧ ¬Grants s (n + 32))

instance (s : State) (blocks : List Block) (n : Nat) : Decidable (Denied s blocks n) :=
  inferInstanceAs (Decidable (_ ∨ _ ∨ (∀ b ∈ blocks, ¬Fits n b) ∧ ¬Grants s (n + 32)))

/-- `smalloc` reuses the first block that fits. -/
theorem smalloc_reuses (sound : Sound s (front ++ b :: back)) (fits : Fits n b) (positive : n ≠ 0)
    (small : n ≤ 100000000) (finds : Returns (searchFreeBlock n) s b.address s) :
    ∃ list, Returns (smalloc n) s (b.address + 32) (marked s b.address false list) ∧
      Grant s (front ++ b :: back) n (b.address + 32) (marked s b.address false list)
        (front ++ b.mark false :: back) := by
  have member : b ∈ front ++ b :: back := by simp
  have mapped := sound.header member
  have sized : size (setFree s.bytes b.address false) b.address = b.size :=
    (setFree_fields (Or.inl rfl)).2.2.trans (sound.stored b member).1
  have counters := tally_reuse fits.1 sound
  rw [← sound.counters] at counters
  refine ⟨_, ?_, ⟨sound.mark counters, rfl, ?_⟩, ?_, ?_, Extends.mark front b back false⟩
  · refine Returns.ifNeg (by omega) (Returns.bind finds (Returns.ifPos (sound.nonzero member) ?_))
    apply Returns.bind (writeFree_returns mapped)
    refine Returns.bind ((readSize_returns
      (s := s.withBytes (setFree s.bytes b.address false)) mapped).to sized) ?_
    exact Returns.bind (x := ()) rfl Returns.pure
  · intro x out
    refine setFree_outside fun cell => out (Or.inl ⟨b, member, ?_⟩)
    simp only [mem_cells] at cell
    omega
  · refine ⟨b.mark false, by simp, rfl, rfl, fits.2, ?_⟩
    simp only [owned, List.filter_append, List.filter_cons, List.map_append, fits.1, mark_free,
      Bool.not_true, Bool.not_false, Bool.false_eq_true, if_false, if_true, List.map_cons, mark_address,
      mark_size]
    exact List.perm_middle
  · intro c listed unfit
    rcases List.mem_append.mp listed with inFront | inRest
    · exact List.mem_append_left _ inFront
    · rcases List.mem_cons.mp inRest with rfl | inBack
      · exact absurd fits unfit
      · simp [inBack]

/-- What the system did not give is not returned. -/
theorem smalloc_denied (sound : Sound s blocks) (denied : Denied s blocks n) :
    ∃ replies, Returns (smalloc n) s 0 { s with replies := replies } := by
  by_cases odd : n = 0 ∨ 100000000 < n
  · exact ⟨s.replies, Returns.ifPos odd Returns.pure⟩
  obtain ⟨none, never⟩ := (denied.resolve_left (by omega)).resolve_left (by omega)
  rcases searchFreeBlock_cases sound n with ⟨_, finds⟩ | ⟨front, b, back, rfl, fits, _⟩
  · rcases carveBlock_cases sound (n := n) (by omega) with ⟨_, run⟩ | ⟨granted, _⟩
    · exact ⟨s.replies.tail, Returns.ifNeg odd (Returns.bind finds (Returns.ifNeg (by simp) run))⟩
    · exact absurd granted never
  · exact absurd fits (none b (by simp))

/-- A request is refused, leaving everything as it was, or granted by first
fit. -/
theorem smalloc_cases (sound : Sound s blocks) (n : Nat) :
    (Denied s blocks n ∧ ∃ replies, Returns (smalloc n) s 0 { s with replies := replies }) ∨
    ∃ p t new, Returns (smalloc n) s p t ∧ Grant s blocks n p t new ∧ FirstFit s blocks n p t := by
  by_cases odd : n = 0 ∨ 100000000 < n
  · left
    refine ⟨?_, s.replies, Returns.ifPos odd Returns.pure⟩
    rcases odd with zero | large
    · exact Or.inl zero
    · exact Or.inr (Or.inl large)
  have positive : n ≠ 0 := fun zero => odd (Or.inl zero)
  have small : n ≤ 100000000 := by omega
  rcases searchFreeBlock_cases sound n with ⟨none, finds⟩ | ⟨front, b, back, rfl, fits, before, finds⟩
  · rcases carveBlock_cases sound small with ⟨denied, run⟩ | ⟨_, a, t, above, run, evolves, _⟩
    · left
      refine ⟨Or.inr (Or.inr ⟨none, denied⟩), s.replies.tail, ?_⟩
      exact Returns.ifNeg odd (Returns.bind finds (Returns.ifNeg (by simp) run))
    · right
      refine ⟨a + 32, t, _, Returns.ifNeg odd (Returns.bind finds (Returns.ifNeg (by simp) run)),
        ⟨evolves, ?_, ?_, ?_⟩, ?_, fun _ => none⟩
      · refine ⟨⟨a, n, false⟩, by simp, rfl, rfl, Nat.le_refl n, ?_⟩
        simp only [owned, List.filter_append, List.map_append]
        exact List.perm_append_comm
      · exact fun b member _ => List.mem_append_left _ member
      · exact fun b member => ⟨b, List.mem_append_left _ member, rfl, rfl⟩
      · exact fun b member fits => absurd fits (none b member)
  · right
    obtain ⟨list, run, grant⟩ := smalloc_reuses sound fits positive small finds
    refine ⟨_, _, _, run, grant, ?_, fun moved => absurd rfl moved⟩
    intro c member fitsToo lowest
    have same : c = b := by
      by_contra other
      have below := lowest b (by simp) fits
      rcases List.mem_append.mp member with inFront | inRest
      · exact before c inFront fitsToo
      · have ordered := (List.pairwise_append.mp sound.ordered).2.1
        rcases List.mem_cons.mp inRest with equal | inBack
        · exact other equal
        · have := (List.pairwise_cons.mp ordered).1 c inBack
          omega
    rw [same]
    exact ⟨rfl, rfl, rfl⟩

end OperatingSystems.Malloc2
