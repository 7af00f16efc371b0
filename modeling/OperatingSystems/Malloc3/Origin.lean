import OperatingSystems.Malloc3.WellFormed

/-!
# The lowest block

`mergeBlocks` and `tryMergeRealloc` recognise the lowest block of the heap by
comparing its address with `sbrk_start`. When the break is not aligned at
start-up, `smalloc` first moves it up and stores in `sbrk_start` what `sbrk`
returns, which is the old break. No block starts there, so the lowest block is
recognised in every run exactly when the break was aligned from the beginning.
-/

namespace OperatingSystems.Malloc3

open Bytes Process MallocMetadata Tiling Payloads Runs

variable {s : State} {sys : System} {blocks : List Block}

/-- The headers on the block list, in its order. -/
def headers (s : State) : List Nat :=
  (links s).walk 0 s.globals.blockList.size.toNat s.globals.blockList.head

/-- A block is taken for the first exactly when it is the lowest, and the footer
looked at before any other block lies above the lowest. -/
structure KnowsLowest (s : State) : Prop where
  first : ∀ a ∈ headers s, Returns (previousFooter a) s 0 s ↔ ∀ b ∈ headers s, a ≤ b
  above : ∀ a ∈ headers s, ∀ footer, Returns (previousFooter a) s footer s →
    footer = 0 ∨ ∃ b ∈ headers s, b ≤ footer

/-- The client calls `smalloc` and `sfree` only, the latter with pointers it
holds. -/
def AllocatesAndFrees (call : Call) (sys : System) : Prop :=
  match call with
  | .smalloc _ => True
  | .sfree p => Legal (.sfree p) sys
  | _ => False

instance (call : Call) (sys : System) : Decidable (AllocatesAndFrees call sys) :=
  match call with
  | .smalloc _ => inferInstanceAs (Decidable True)
  | .sfree p => inferInstanceAs (Decidable (Legal (.sfree p) sys))
  | .scalloc _ _ | .srealloc _ _ | .store _ _ => inferInstanceAs (Decidable False)

/-- Every run from this break returns and knows the lowest block. -/
def LowestKnownFrom (brk : Nat) : Prop :=
  ∀ launch : Launch, launch.brk = brk → ∀ calls, During launch AllocatesAndFrees calls →
    ∃ sys, run launch calls = .ok sys ∧ KnowsLowest sys.state

/-- The list of a tiled heap holds the headers of its blocks. -/
theorem Tiled.headers (tiled : Tiled s blocks) :
    (Malloc3.headers s).Perm (blocks.map Block.address) := by
  obtain ⟨nodes, perm, linked, _⟩ := tiled.listed
  have length : s.globals.blockList.size.toNat = nodes.length := by
    rw [tiled.counted, perm.length_eq, List.length_map, Int.toNat_natCast]
  have same : Malloc3.headers s = nodes := by
    unfold Malloc3.headers
    rw [length]
    exact linked.chain.walk
  rw [same]
  exact perm

/-- In a tiled heap the lowest block is known. -/
theorem Tiled.knows_lowest (tiled : Tiled s blocks) : KnowsLowest s := by
  have listed : ∀ {a}, a ∈ Malloc3.headers s ↔ ∃ b ∈ blocks, b.address = a := by
    intro a
    rw [tiled.headers.mem_iff, List.mem_map]
  constructor
  · intro a member
    obtain ⟨b, known, rfl⟩ := listed.mp member
    obtain ⟨pre, post, rfl⟩ := List.append_of_mem known
    have reads := previousFooter_returns tiled
    cases pre with
    | nil =>
      refine ⟨fun _ c other => ?_, fun _ => reads⟩
      obtain ⟨c, inHeap, rfl⟩ := listed.mp other
      have := tiled.tiles.within inHeap
      have start : b.address = s.heapStart := tiled.tiles.1
      omega
    | cons p pre =>
      have below := tiled.place.1.within (x := p) (by simp)
      rw [p.extent_eq] at below
      rw [if_neg (by simp)] at reads
      constructor
      · intro null
        have := (null.unique reads).1
        omega
      · intro lowest
        have := lowest p.address (listed.mpr ⟨p, by simp, rfl⟩)
        omega
  · intro a member footer asked
    obtain ⟨b, known, rfl⟩ := listed.mp member
    obtain ⟨pre, post, rfl⟩ := List.append_of_mem known
    have same := (asked.unique (previousFooter_returns tiled)).1
    cases pre with
    | nil => exact Or.inl same
    | cons p pre =>
      have below := tiled.place.1.within (x := p) (by simp)
      rw [p.extent_eq] at below
      rw [if_neg (by simp)] at same
      exact Or.inr ⟨p.address, listed.mpr ⟨p, by simp, rfl⟩, by omega⟩

/-- From an aligned break every run knows the lowest block. -/
theorem lowest_known_of_aligned (launch : Launch) (aligned : launch.brk % 8 = 0) {calls : List Call}
    (plain : During launch AllocatesAndFrees calls) :
    ∃ sys, run launch calls = .ok sys ∧ KnowsLowest sys.state := by
  have ends := execute_ends (I := fun sys => ∃ blocks, Held sys blocks) (E := fun _ => False)
    (fun call sys invariant allowed => ?_) ⟨[], launch.held aligned⟩ plain
  · obtain ⟨sys, reached, blocks, held⟩ := ends.reaches
    exact ⟨sys, reached, held.tiled.knows_lowest⟩
  · obtain ⟨blocks, held⟩ := invariant
    have legal : Legal call sys := by
      cases call <;> simp_all [AllocatesAndFrees, Legal]
    have shrinks : Shrinks call sys := by
      cases call <;> simp_all [AllocatesAndFrees, Shrinks]
    obtain ⟨next, new, step, advances, _⟩ := perform_advances held legal shrinks
    rw [step]
    exact ⟨new, advances.held⟩

/-- `finishBlock` on an empty list lists its block alone, wherever the heap
starts. -/
theorem finishBlock_first {a : Nat} (empty : s.globals.blockList.head = 0)
    (counted : s.globals.blockList.size = 0) (proper : 0 < a) (small : a < 2 ^ 64)
    (room : s.Mapped a 72) :
    ∃ t, Returns (finishBlock 8 a) s (a + 32) t ∧ headers t = [a] ∧
      t.globals.sbrkStart = s.globals.sbrkStart := by
  obtain ⟨u, isWritten⟩ : ∃ u, u = s.withBytes (setFree (setSize s.bytes a 8) a false) := ⟨_, rfl⟩
  have roomNow : u.Mapped a 72 := by
    rw [isWritten]
    exact room
  have none : Linked u [] := by
    refine ⟨DoublyLinked.represents_nil.mpr ?_, by simp, by simp, by simp⟩
    rw [isWritten]
    exact empty
  have newcomer : Newcomer u [] a :=
    ⟨by omega, small, roomNow.sub (Nat.le_refl a) (by omega), by simp, by simp⟩
  obtain ⟨bytes, head, more, adds, perm, linked, _, _⟩ :=
    addMetadata_returns none newcomer List.Pairwise.nil
  obtain rfl : more = [a] := List.perm_singleton.mp perm
  have isHead : head = a := linked.chain.head
  refine ⟨(relink u bytes head 1).withBytes (copy bytes (a + 8 + 32) a 32), ?_, ?_, ?_⟩
  · apply Returns.bind (writeSize_returns (room.sub (Nat.le_refl a) (by omega)))
    refine Returns.bind (t := u) (x := ()) ?_ (Returns.bind adds ?_)
    · rw [isWritten]
      exact writeFree_returns (s := s.withBytes _) (room.sub (Nat.le_refl a) (by omega))
    · exact Returns.bind (x := ()) (memmove_returns (n := 32)
        (roomNow.sub (Nat.le_refl a) (by omega)) (roomNow.sub (b := a + 8 + 32) (by omega)
        (by omega))) Returns.pure
  · have none : u.globals.blockList.size = 0 := by
      rw [isWritten]
      exact counted
    simp only [headers, links, relink, Machine.withBytes, none, isHead]
    simp [DoublyLinked.Links.walk, Nat.ne_of_gt proper]
  · rw [isWritten]
    rfl

/-- The alignment step moves the break up and stores the old one. -/
theorem alignBreak_moves {address : Nat} {contents : Nat → UInt8} {rest : List Reply}
    (counted : s.globals.blockList.size = 0) (odd : s.brk % 8 ≠ 0)
    (answers : s.replies = .grant address contents :: rest)
    (can : s.CanMoveBreak (s.brk + (8 - s.brk % 8) : Nat)) :
    ∃ bytes, Returns alignBreak s true { s with
      brk := s.brk + (8 - s.brk % 8)
      bytes := bytes
      replies := rest
      globals := { s.globals with sbrkStart := s.brk } } := by
  obtain ⟨bytes, moves⟩ := sbrk_granted (by omega) (by omega) answers can
  have differs : s.brk ≠ mapFailed := by
    have := can.2.1
    unfold mapFailed
    omega
  refine ⟨bytes, Returns.bind globals_returns (Returns.bind sbrk_zero (Returns.ifPos
    ⟨counted, odd⟩ (Returns.bind moves (Returns.bind (x := ()) rfl ?_))))⟩
  exact Returns.pure.to (by simp [differs])

/-- A launch from the same break where the system grants the first two requests. -/
def Launch.granting (launch : Launch) : Launch :=
  { launch with replies := [.grant 0 fun _ => 0, .grant 0 fun _ => 0] }

/-- The first block after a break that had to be aligned: `sbrk_start` keeps the
old break. -/
theorem smalloc_unaligned (launch : Launch) (odd : launch.brk % 8 ≠ 0) :
    ∃ p t, Returns (smalloc 8) launch.granting.system.state p t ∧
      headers t = [launch.brk + (8 - launch.brk % 8)] ∧ t.globals.sbrkStart = launch.brk := by
  have small := launch.small
  obtain ⟨m, aligns⟩ := alignBreak_moves (s := launch.granting.system.state) rfl odd rfl
    ⟨by simp only [Launch.granting, Launch.system]; omega,
      by simp only [Launch.granting, Launch.system]; omega,
      fun region member => absurd member List.not_mem_nil⟩
  obtain ⟨s, isAligned⟩ : ∃ s : State, s = { launch.granting.system.state with
      brk := launch.brk + (8 - launch.brk % 8)
      bytes := m
      replies := [.grant 0 fun _ => 0] } := ⟨_, rfl⟩
  have brk : s.brk = launch.brk + (8 - launch.brk % 8) := by rw [isAligned]
  have heapStart : s.heapStart = launch.brk := by rw [isAligned]; rfl
  have list : s.globals.blockList = ⟨0, 0, 0⟩ := by rw [isAligned]; rfl
  have origin : s.globals.sbrkStart = launch.brk := by rw [isAligned]; rfl
  obtain ⟨m', grows⟩ := sbrk_granted (s := s) (n := 8 + 2 * 32) (by omega) (by omega)
    (show s.replies = .grant 0 _ :: [] by rw [isAligned])
    ⟨by omega, by omega, by rw [isAligned]; exact fun region member => absurd member List.not_mem_nil⟩
  obtain ⟨u, isGrown⟩ : ∃ u : State, u = withStatistics (withWilderness { s with
      brk := s.brk + (8 + 2 * 32)
      bytes := m'
      replies := [] } s.brk) (s.globals.statistics.update 1 0 8 0 (2 * 32)) := ⟨_, rfl⟩
  have room : u.Mapped s.brk 72 := by
    rw [isGrown]
    refine Machine.mapped_heap ?_ (Nat.le_refl _)
    change s.heapStart ≤ s.brk
    omega
  obtain ⟨t, finish, listed, kept⟩ := finishBlock_first (s := u) (a := s.brk)
    (by rw [isGrown]; exact congrArg BlockList.head list)
    (by rw [isGrown]; exact congrArg BlockList.size list) (by omega) (by omega) room
  refine ⟨s.brk + 32, t, ?_, by rw [listed, brk], by rw [kept, isGrown]; exact origin⟩
  have empty : Linked launch.granting.system.state [] :=
    ⟨DoublyLinked.represents_nil.mpr rfl, by simp, by simp, by simp⟩
  refine Returns.ifNeg (by omega) (Returns.ifPos (by decide) ?_)
  refine Returns.bind ((searchFreeBlock_returns empty _).to rfl) (Returns.ifNeg (by simp) ?_)
  apply Returns.bind (Returns.bind getWilderness_returns (Returns.ifPos rfl Returns.pure))
  refine Returns.ifNeg (by simp) (Returns.bind (t := s) (x := true) ?_ (Returns.ifPos rfl ?_))
  · rw [isAligned]
    exact aligns
  · refine Returns.bind grows (Returns.ifNeg (by unfold mapFailed; omega) ?_)
    refine Returns.bind setWilderness_returns (Returns.bind (t := u) (x := ()) ?_ finish)
    rw [isGrown]
    exact updateStatistics_returns

/-- From an unaligned break one request is enough to lose the lowest block. -/
theorem lowest_unknown_of_unaligned (launch : Launch) (odd : launch.brk % 8 ≠ 0) :
    ¬LowestKnownFrom launch.brk := by
  intro known
  have proper := launch.proper
  obtain ⟨p, t, returns, listed, origin⟩ := smalloc_unaligned launch odd
  have step : perform (.smalloc 8) launch.granting.system = _ := perform_returns returns
  have ran : run launch.granting [.smalloc 8] =
      .ok ⟨t, Call.holding p launch.granting.system.live (.smalloc 8)⟩ := by
    unfold run
    rw [execute, step]
    rfl
  have plain : During launch.granting AllocatesAndFrees [.smalloc 8] := by
    refine ⟨trivial, ?_⟩
    rw [step]
    trivial
  obtain ⟨sys, reached, knows⟩ := known launch.granting rfl _ plain
  obtain rfl := Except.ok.inj (ran.symm.trans reached)
  obtain ⟨a, isFirst⟩ : ∃ a, a = launch.brk + (8 - launch.brk % 8) := ⟨_, rfl⟩
  rw [← isFirst] at listed
  have first := (knows.first a (by rw [listed]; simp)).mpr (by rw [listed]; simp)
  have reads : Returns (previousFooter a) t (if a = t.globals.sbrkStart then 0 else a - 32) t := rfl
  have differs : a ≠ t.globals.sbrkStart := by
    rw [origin]
    omega
  rw [if_neg differs] at reads
  have := (first.unique reads).1
  omega

/-- The lowest block is known in every run exactly when the break is aligned at
start-up. -/
theorem lowest_known_iff (launch : Launch) :
    LowestKnownFrom launch.brk ↔ launch.brk % 8 = 0 := by
  constructor
  · intro known
    by_contra odd
    exact lowest_unknown_of_unaligned launch odd known
  · intro aligned other same calls plain
    exact lowest_known_of_aligned other (same ▸ aligned) plain

/-- From the break 4100 the first block lies at 4104 and `sbrk_start` stays
4100; freeing that block reads below the heap. -/
theorem lowest_unknown_from_4100 : ¬∀ launch : Launch, LowestKnownFrom launch.brk := by
  intro known
  obtain ⟨launch, isLaunch⟩ : ∃ launch : Launch, launch = ⟨4100, fun _ => 0,
    [.grant 0 fun _ => 0, .grant 0 fun _ => 0], by decide, by decide⟩ := ⟨_, rfl⟩
  obtain ⟨sys, reached, _⟩ := known launch launch rfl [.smalloc 8, .sfree 4136]
    (by rw [isLaunch]; decide +kernel)
  have crashes : (run launch [.smalloc 8, .sfree 4136]).toOption.isNone = true := by
    rw [isLaunch]
    decide +kernel
  rw [reached] at crashes
  exact absurd crashes (by simp [Except.toOption])

end OperatingSystems.Malloc3
