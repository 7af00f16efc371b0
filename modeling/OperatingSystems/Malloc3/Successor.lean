import OperatingSystems.Malloc3.Predecessor

/-!
# Growing without a free predecessor

A block with no free block before it grows where it is: over the break when it
is the wilderness, else into the free block behind it, which may be extended
first. Nothing else is possible, so `tryMergeRealloc` gives up exactly when the
block behind is in use, or is too small and not the wilderness.
-/

namespace OperatingSystems.Malloc3

open Bytes Process MallocMetadata Tiling Payloads Runs

variable {s t : State} {pre post blocks new : List Block} {b c next : Block} {a n : Nat}

/-- A request for more heap on the way to grow the block at `a` to `n` bytes is
refused. -/
def SbrkFails (s : State) (a n : Nat) : Prop :=
  growth s a n ≠ .nowhere ∧ 0 < extension s a n ∧ ¬s.Grants (extension s a n)

instance (s : State) (a n : Nat) : Decidable (SbrkFails s a n) :=
  inferInstanceAs (Decidable (_ ∧ _ ∧ _))

/-- Nothing behind the block helps: it is not the wilderness, and the next block is
in use, or too small and not the wilderness. -/
def Stuck (s : State) (b : Block) (post : List Block) (n : Nat) : Prop :=
  b.address ≠ s.globals.blockList.wilderness ∧ ∀ next, post.head? = some next →
    next.free = false ∨ b.size + next.size + 2 * SOM < n ∧
      next.address ≠ s.globals.blockList.wilderness

/-- The block `b` has grown to `n` bytes at its place, and the heap is exact for the
new blocks. The bytes asked for are those that were missing. -/
structure GrownInPlace (s : State) (b : Block) (n : Nat) (t : State) (new : List Block) : Prop where
  tiles : Tile t.globals.sbrkStart new t.brk
  stored : ∀ c ∈ new, Stored t.bytes c
  agree : ∀ c ∈ new, c.foot = c.free
  listed : ∃ nodes, nodes.Perm (new.map Block.address) ∧ Linked t nodes ∧
    nodes.Pairwise (Before t.bytes)
  counted : t.globals.blockList.size = new.length
  counters : t.globals.statistics = tally new t.maps
  grown : ∃ c ∈ new, c.address = b.address ∧ c.free = false ∧ n ≤ c.size
  carried : ∀ i, i < b.size → t.bytes (b.address + 32 + i) = s.bytes (b.address + 32 + i)
  unwrapped : growth s b.address n = .overBreak ∨ growth s b.address n = .nextOverBreak →
    0 < extension s b.address n ∧
      wrapSub n (wrap (joined s b.address (growth s b.address n))) = extension s b.address n

/-- The three ways return null or the payload where it was. -/
theorem growLast_yields (current size : Nat) :
    Yields (growLast current size) fun r => r = 0 ∨ r = current + SOM := by
  unfold growLast
  refine .bind fun _ => .bind fun _ => .bind fun _ => .bind fun _ => .bind fun _ => ?_
  refine .ite (fun _ => .pure (Or.inl rfl)) fun _ => ?_
  refine .bind fun _ => .bind fun _ => .bind fun _ => .bind fun _ => .bind fun _ => .bind fun _ => ?_
  exact .bind fun _ => .bind fun _ => .bind fun _ => .bind fun _ => .pure (Or.inr rfl)

theorem absorbNext_yields (current next : Nat) :
    Yields (absorbNext current next) fun r => r = 0 ∨ r = current + SOM := by
  unfold absorbNext
  refine .bind fun _ => .bind fun _ => .bind fun _ => .bind fun _ => .bind fun _ => ?_
  exact .bind fun _ => .bind fun _ => .bind fun _ => .bind fun _ => .pure (Or.inr rfl)

theorem growNext_yields (current next size : Nat) :
    Yields (growNext current next size) fun r => r = 0 ∨ r = current + SOM := by
  unfold growNext
  refine .bind fun _ => .bind fun _ => .bind fun _ => .bind fun _ => .bind fun _ => ?_
  refine .ite (fun _ => .pure (Or.inl rfl)) fun _ => ?_
  refine .bind fun _ => .bind fun _ => .bind fun _ => .bind fun _ => .bind fun _ => ?_
  exact .bind fun _ => .bind fun _ => .bind fun _ => .bind fun _ => .pure (Or.inr rfl)

/-- Without a free block before it, cases c to f are those. -/
theorem growElsewhere_yields (address prevFooter next size : Nat) (nextFree : Bool) :
    Yields (growElsewhere address prevFooter next size false nextFree)
      fun r => r = 0 ∨ r = address + SOM := by
  have neither : fitsBoth address prevFooter next size false nextFree = pure false := if_neg (by simp)
  unfold growElsewhere
  rw [neither]
  refine .bind fun wilderness => .ite (fun _ => growLast_yields _ _) fun _ => ?_
  refine .bind fun fits => .ite (fun _ => absorbNext_yields _ _) fun _ => ?_
  simp only [pure_bind, Bool.false_eq_true, if_false]
  exact .ite (fun _ => growNext_yields _ _ _) fun _ => .pure (Or.inl rfl)

/-- Without a free block before it nothing moves down. -/
theorem movedLength_alone (alone : previousFree s a = false) : movedLength s a n = 0 := by
  unfold movedLength growth
  simp only [alone, Bool.false_eq_true, false_and, if_false]
  split_ifs <;> rfl

/-- There is no way to grow exactly when nothing behind the block helps. -/
theorem growth_alone (tiled : Tiled s (pre ++ b :: post)) (used : footBefore pre = false)
    (exact : s.globals.blockList.wilderness = lastAddress (pre ++ b :: post)) :
    growth s b.address n = .nowhere ↔ Stuck s b post n := by
  have alone : previousFree s b.address = false := tiled.previousFree_eq.trans used
  have sized : size s.bytes b.address = b.size := (tiled.stored b (by simp)).size
  have isLast := tiled.last_iff exact
  unfold growth Stuck
  simp only [alone, Bool.false_eq_true, false_and, if_false, sized]
  cases post with
  | nil => simp [isLast]
  | cons next post =>
    have ends : nextAddress s b.address = next.address := tiled.nextAddress_eq.trans tiled.next.symm
    have free : nextFree s b.address = next.free := tiled.nextFree_eq
    have inside : b.address ≠ s.globals.blockList.wilderness := by simp [isLast]
    simp only [free, ends, tiled.nextSize_eq, inside, if_false, ne_eq, not_false_eq_true, true_and,
      List.head?_cons, Option.some.injEq, forall_eq', SOM]
    cases next.free with
    | false => simp
    | true =>
      simp only [true_and, Bool.true_eq_false, false_or]
      split_ifs <;> simp <;> omega

/-- The bytes that are missing are computed without wrapping around. -/
theorem extension_exact (tiled : Tiled s (pre ++ b :: post)) (larger : b.size < n)
    (request : n < 2 ^ 64)
    (way : growth s b.address n = .overBreak ∨ growth s b.address n = .nextOverBreak) :
    0 < extension s b.address n ∧
      wrapSub n (wrap (joined s b.address (growth s b.address n))) = extension s b.address n := by
  have sized : size s.bytes b.address = b.size := (tiled.stored b (by simp)).size
  have short : joined s b.address (growth s b.address n) < n := by
    rcases way with way | way
    · rw [way]
      simpa [joined, sized] using larger
    · -- The block behind it is too small, or it would have been absorbed.
      have absorbed : ¬(nextFree s b.address = true ∧
          n ≤ nextSize s b.address + size s.bytes b.address + 64) := fun fits => by
        unfold growth at way
        rw [if_pos fits] at way
        split_ifs at way
      have free : nextFree s b.address = true := by
        by_contra used
        unfold growth at way
        simp only [used, false_and, and_false, if_false] at way
        split_ifs at way
      have beyond := Nat.not_le.mp fun fits => absorbed ⟨free, fits⟩
      rw [way]
      simp only [joined]
      omega
  unfold extension
  refine ⟨by omega, ?_⟩
  rw [wrap_eq (by omega), wrapSub_eq (by omega) request]

/-- Without a free block before it, and as long as the system grants what is asked for,
a block grows at its place or nothing changes. The increment of `sbrk` is signed;
`srealloc` asks for no more than 100000000 bytes. -/
theorem grows_alone (formed : WellFormed s blocks) (grounded : Grounded s) (mappings : Mappings s)
    (place : blocks = pre ++ b :: post) (live : b.free = false)
    (alone : ∀ p, pre.getLast? = some p → p.free = false) (aligned : Aligned blocks)
    (larger : b.size < n) (even : n % 8 = 0) (request : n < 2 ^ 63)
    (willing : ¬SbrkFails s b.address n) :
    (Stuck s b post n ∧ Returns (tryMergeRealloc b.address n) s 0 s) ∨
      ¬Stuck s b post n ∧ ∃ t new, Returns (tryMergeRealloc b.address n) s (b.address + 32) t ∧
        GrownInPlace s b n t new := by
  have sound := formed.sound grounded mappings
  subst place
  have tiled := sound.tiled
  have shown : Shown pre := fun c member => sound.shown c (by simp [member])
  have used : footBefore pre = false := by
    rcases List.eq_nil_or_concat pre with rfl | ⟨more, p, rfl⟩
    · rfl
    · rw [List.concat_eq_append] at *
      rw [footBefore_concat, formed.agree p (by simp)]
      exact alone p (by simp)
  have stuck := growth_alone (n := n) tiled used sound.wilderness
  have still := movedLength_alone (n := n) (tiled.previousFree_eq.trans used)
  have attempted := tryMergeRealloc_attempted tiled live sound.wilderness shown mappings.apart larger
    request even fun overlaps => absurd overlaps.2 (by omega)
  cases attempted with
  | without way run => exact Or.inl ⟨stuck.mp way, run⟩
  | made way attempt =>
    refine Or.inr ⟨mt stuck.mpr way, ?_⟩
    cases attempt with
    | refused positive denied => exact absurd ⟨way, positive, denied⟩ willing
    | failed odd => exact absurd aligned odd
    | grown _ _ t new c run enlarged sized _ =>
      have same : c.address + 32 = b.address + 32 := by
        have dispatch := (tryMergeRealloc_alone tiled used n).symm.trans run
        exact (growElsewhere_yields _ _ _ _ _ _ _ _ dispatch).resolve_left (by omega)
      rw [same] at run
      obtain ⟨rest, _, after⟩ := enlarged.used
      obtain ⟨member, inHand⟩ := mem_inUse.mp (after.mem_iff.mpr (List.mem_cons_self))
      have covers : n ≤ c.size := sized ▸ Nat.le_max_left _ _
      exact ⟨t, new, run,
        { tiles := enlarged.tiled.origin ▸ enlarged.tiled.tiles
          stored := enlarged.tiled.stored
          agree := (enlarged.coalesced formed.whole).agree
          listed := enlarged.tiled.listed
          counted := enlarged.tiled.counted
          counters := enlarged.counters formed.counters
          grown := ⟨c, member, by omega, inHand, covers⟩
          carried := fun i inside => same ▸ enlarged.carried i inside (by simp only; omega)
          unwrapped := extension_exact tiled larger (by omega) }⟩

/-- The first block absorbs the one behind it, which is the wilderness, and grows over
the break. -/
theorem grows_alone_sample : ∃ sys t new,
    run (pageLaunch (List.replicate 3 (.grant 0 fun _ => 1)))
      [.smalloc 200, .smalloc 104, .sfree 4392] = .ok sys ∧
    Returns (tryMergeRealloc 4096 480) sys.state 4128 t ∧
    GrownInPlace sys.state ⟨4096, 200, false, false⟩ 480 t new := by
  obtain ⟨sys, reached, formed, grounded, mappings, test⟩ := modest_test
    (pageLaunch (List.replicate 3 (.grant 0 fun _ => 1)))
    [.smalloc 200, .smalloc 104, .sfree 4392]
    ([] ++ ⟨4096, 200, false, false⟩ :: [⟨4360, 104, true, true⟩])
    (fun s => ¬SbrkFails s 4096 480 ∧ s.globals.blockList.wilderness = 4360)
    (by decide) (by decide +kernel) (by decide +kernel)
  obtain ⟨willing, last⟩ := of_decide_eq_true test
  rcases grows_alone formed grounded mappings rfl rfl (by simp) (by simp) (by decide) (by decide)
    (by decide) willing with ⟨⟨_, stuck⟩, _⟩ | ⟨_, t, new, run, grown⟩
  · rcases stuck _ rfl with used | ⟨_, inside⟩
    · exact absurd used (by decide)
    · exact absurd last.symm inside
  · exact ⟨sys, t, new, reached, run, grown⟩

end OperatingSystems.Malloc3
