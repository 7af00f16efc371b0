import OperatingSystems.Malloc3.OverBreak

/-!
# Which branch grows a block

`growth` names the branch of `tryMergeRealloc` that a request takes, as a
function of the state before the call. Every branch but the last succeeds as
soon as the system grants the bytes it asks for. Two branches are unsafe on some
states: moving a payload down may overwrite the links of the header it passes
over, and absorbing the wilderness leaves the pointer to it behind.
-/

namespace OperatingSystems.Malloc3

open Bytes Process MallocMetadata Tiling

variable {s t : State} {pre post more blocks : List Block} {b c p next : Block} {n : Nat}

/-- The flag in the footer before the block; the first block has none. -/
def previousFree (s : State) (a : Nat) : Bool :=
  decide (a ≠ s.globals.sbrkStart) && isFree s.bytes (a - 32)

/-- The size in the footer before the block. -/
def previousSize (s : State) (a : Nat) : Nat := size s.bytes (a - 32)

/-- Where the block ends. -/
def nextAddress (s : State) (a : Nat) : Nat := a + size s.bytes a + 64

/-- The flag in the header behind the block; the last block has none. -/
def nextFree (s : State) (a : Nat) : Bool :=
  decide (nextAddress s a ≠ s.brk) && isFree s.bytes (nextAddress s a)

/-- The size in the header behind the block. -/
def nextSize (s : State) (a : Nat) : Nat := size s.bytes (nextAddress s a)

/-- The ways to grow a block in place, by the blocks it becomes one with and
whether the break moves. -/
inductive Growth where
  | intoPrevious | previousOverBreak | overBreak | intoNext | intoBoth | bothOverBreak
  | nextOverBreak | nowhere
deriving DecidableEq, Repr

/-- The way that `tryMergeRealloc` takes to grow the block at `a` to `n` bytes. -/
def growth (s : State) (a n : Nat) : Growth :=
  if previousFree s a ∧ a = s.globals.blockList.wilderness then
    if previousSize s a + size s.bytes a + 64 ≤ n then .previousOverBreak else .intoPrevious
  else if previousFree s a ∧ n ≤ size s.bytes a + previousSize s a + 64 then .intoPrevious
  else if a = s.globals.blockList.wilderness then .overBreak
  else if nextFree s a ∧ n ≤ nextSize s a + size s.bytes a + 64 then .intoNext
  else if previousFree s a ∧ nextFree s a ∧
      n ≤ previousSize s a + size s.bytes a + nextSize s a + 128 then .intoBoth
  else if nextFree s a ∧ nextAddress s a = s.globals.blockList.wilderness then
    if previousFree s a then .bothOverBreak else .nextOverBreak
  else .nowhere

/-- The payload of the blocks that become one, before the break moves. -/
def joined (s : State) (a : Nat) : Growth → Nat
  | .intoPrevious | .previousOverBreak => previousSize s a + size s.bytes a + 64
  | .intoNext | .nextOverBreak => size s.bytes a + nextSize s a + 64
  | .intoBoth | .bothOverBreak => previousSize s a + size s.bytes a + nextSize s a + 128
  | .overBreak | .nowhere => size s.bytes a

/-- The bytes the break has to move by. -/
def extension (s : State) (a n : Nat) : Nat := n - joined s a (growth s a n)

/-- The size of the grown block. -/
def grownSize (s : State) (a n : Nat) : Nat := max n (joined s a (growth s a n))

/-- There is a way to grow in place, and the system grants what it needs. -/
def Grows (s : State) (a n : Nat) : Prop :=
  growth s a n ≠ .nowhere ∧ (extension s a n = 0 ∨ s.Grants (extension s a n))

/-- The payload bytes that are moved down. -/
def movedLength (s : State) (a n : Nat) : Nat :=
  match growth s a n with
  | .previousOverBreak => n - previousSize s a - 64
  | .intoPrevious | .intoBoth | .bothOverBreak => size s.bytes a
  | _ => 0

/-- The payload that moves down overwrites a link of the header it passes over. -/
def Overlaps (s : State) (a n : Nat) : Prop := Grows s a n ∧ previousSize s a + 48 < movedLength s a n

/-- The wilderness is absorbed, and the pointer to it stays. -/
def LosesWilderness (s : State) (a n : Nat) : Prop :=
  (growth s a n = .intoNext ∨ growth s a n = .intoBoth) ∧
    nextAddress s a = s.globals.blockList.wilderness

instance (s : State) (a n : Nat) : Decidable (Grows s a n) := inferInstanceAs (Decidable (_ ∧ _))

instance (s : State) (a n : Nat) : Decidable (Overlaps s a n) := inferInstanceAs (Decidable (_ ∧ _))

instance (s : State) (a n : Nat) : Decidable (LosesWilderness s a n) :=
  inferInstanceAs (Decidable (_ ∧ _))

/-- What is read before the block is what the blocks before it are. -/
theorem Tiled.previousFree_eq (tiled : Tiled s (pre ++ b :: post)) :
    previousFree s b.address = footBefore pre := by
  have first := tiled.origin
  rcases List.eq_nil_or_concat pre with rfl | ⟨more, p, rfl⟩
  · have start : s.heapStart = b.address := tiled.place.1
    simp [previousFree, footBefore, first, start]
  · rw [List.concat_eq_append] at *
    have beside : p.address + p.size + 64 = b.address := tiled.previous
    have place := tiled.place.1.within (x := p) (by simp)
    rw [p.extent_eq] at place
    have footer : b.address - 32 = p.address + p.size + 32 := by omega
    have differs : b.address ≠ s.globals.sbrkStart := by omega
    simp [previousFree, differs, footer, (tiled.stored p (by simp)).foot]

theorem Tiled.previousSize_eq (tiled : Tiled s (more ++ [p] ++ b :: post)) :
    previousSize s b.address = p.size := by
  have beside : p.address + p.size + 64 = b.address := tiled.previous
  have footer : b.address - 32 = p.address + p.size + 32 := by omega
  unfold previousSize
  rw [footer]
  exact (tiled.stored p (by simp)).footSize

theorem Tiled.nextAddress_eq (tiled : Tiled s (pre ++ b :: post)) :
    nextAddress s b.address = b.address + b.size + 64 := by
  unfold nextAddress
  rw [(tiled.stored b (by simp)).size]

/-- What is read behind the block is what the blocks behind it are. -/
theorem Tiled.nextFree_eq (tiled : Tiled s (pre ++ b :: post)) :
    nextFree s b.address = freeAfter post := by
  have above := tiled.place.2.2
  unfold nextFree
  rw [tiled.nextAddress_eq]
  cases post with
  | nil =>
    have isEnd : b.address + b.size + 64 = s.brk := above
    simp [freeAfter, isEnd]
  | cons next post =>
    have place : next.address = b.address + b.size + 64 := tiled.next
    have within := above.within (x := next) (by simp)
    rw [next.extent_eq] at within
    have differs : next.address ≠ s.brk := by omega
    simp [differs, ← place, (tiled.stored next (by simp)).free]

theorem Tiled.nextSize_eq (tiled : Tiled s (pre ++ b :: next :: post)) :
    nextSize s b.address = next.size := by
  have place : next.address = b.address + b.size + 64 := tiled.next
  unfold nextSize
  rw [tiled.nextAddress_eq, ← place]
  exact (tiled.stored next (by simp)).size

/-- An attempt is judged by what the program does. -/
theorem Attempt.same {old : List Block} {program other : Alloc Nat} {added size : Nat}
    {stale fails : Prop} (attempt : Attempt s old b other added size stale fails)
    (same : program s = other s) : Attempt s old b program added size stale fails := by
  cases attempt with
  | refused positive denied statistics run =>
    exact .refused positive denied statistics (same.trans run)
  | failed odd uneven run => exact .failed odd uneven (same.trans run)
  | grown granted holds t new c run enlarged sized last =>
    exact .grown granted holds t new c (same.trans run) enlarged sized last

/-- What `tryMergeRealloc` reads before it decides. -/
theorem tryMergeRealloc_step (tiled : Tiled s (pre ++ b :: post)) (n : Nat) :
    tryMergeRealloc b.address n s =
      (if footBefore pre then
          afterPrevious b.address (if pre = [] then 0 else b.address - 32) n
            (growElsewhere b.address (if pre = [] then 0 else b.address - 32)
              (if post = [] then 0 else b.address + b.size + 64) n (footBefore pre) (freeAfter post))
        else growElsewhere b.address (if pre = [] then 0 else b.address - 32)
          (if post = [] then 0 else b.address + b.size + 64) n (footBefore pre) (freeAfter post)) s := by
  unfold tryMergeRealloc
  refine (previousFooter_returns tiled).step.trans ?_
  refine (nextHeader_returns tiled).step.trans ?_
  refine (previousFree_returns tiled).step.trans ?_
  refine (nextFree_returns tiled).step.trans ?_
  cases footBefore pre <;> rfl

/-- With a free block before it, case b comes first. -/
theorem tryMergeRealloc_previous (tiled : Tiled s (more ++ [p] ++ b :: post)) (foot : p.foot = true)
    (n : Nat) : tryMergeRealloc b.address n s = afterPrevious b.address (b.address - 32) n
      (growElsewhere b.address (b.address - 32) (if post = [] then 0 else b.address + b.size + 64) n
        true (freeAfter post)) s := by
  have step := tryMergeRealloc_step tiled n
  rw [footBefore_concat, foot] at step
  simpa using step

/-- Without one, the other cases apply at once. -/
theorem tryMergeRealloc_alone (tiled : Tiled s (pre ++ b :: post)) (used : footBefore pre = false)
    (n : Nat) : tryMergeRealloc b.address n s =
      growElsewhere b.address (if pre = [] then 0 else b.address - 32)
        (if post = [] then 0 else b.address + b.size + 64) n false (freeAfter post) s := by
  have step := tryMergeRealloc_step tiled n
  rw [used] at step
  simpa using step

/-- Case b is left when the block is not the last one and does not fit. -/
theorem afterPrevious_passes (tiled : Tiled s (pre ++ [p] ++ b :: post)) {rest : Alloc Nat}
    (inside : s.globals.blockList.wilderness ≠ b.address) (larger : b.size + p.size + 64 < n) :
    afterPrevious b.address (b.address - 32) n rest s = rest s := by
  have beside : p.address + p.size + 64 = b.address := tiled.previous
  have place := tiled.within (b := b) (by simp)
  have small := tiled.small
  have passes : Returns (growIntoPrevious b.address (b.address - 32) n) s none s := by
    unfold growIntoPrevious
    apply Returns.bind getWilderness_returns
    refine Returns.ifNeg inside.symm (Returns.bind Returns.pure (Returns.ifPos rfl ?_))
    apply Returns.bind (tiled.reads_size (b := b) (by simp))
    refine Returns.bind tiled.reads_previous (Returns.ifNeg ?_ Returns.pure)
    simp only [SOM]
    rw [wrap_eq (by omega)]
    omega
  exact passes.step

/-- The tests of cases d and e. -/
theorem fitsNext_returns (tiled : Tiled s (pre ++ b :: next :: post)) (n : Nat) :
    Returns (fitsNext b.address next.address n next.free) s
      (decide (next.free = true ∧ n ≤ next.size + b.size + 64)) s := by
  have beside : next.address = b.address + b.size + 64 := tiled.next
  have placeNext := tiled.within (b := next) (by simp)
  have small := tiled.small
  unfold fitsNext
  cases free : next.free with
  | false => exact (Returns.ifNeg (by simp) Returns.pure).to (by simp)
  | true =>
    apply Returns.ifPos rfl
    apply Returns.bind (tiled.reads_size (b := next) (by simp))
    apply Returns.bind (tiled.reads_size (b := b) (by simp))
    simp only [SOM]
    rw [wrap_eq (by omega)]
    exact Returns.pure.to (by simp)

theorem fitsBoth_returns (tiled : Tiled s (pre ++ b :: next :: post)) (n : Nat) :
    Returns (fitsBoth b.address (if pre = [] then 0 else b.address - 32) next.address n
        (footBefore pre) next.free) s
      (decide (footBefore pre = true ∧ next.free = true ∧
        n ≤ previousSize s b.address + b.size + next.size + 128)) s := by
  have beside : next.address = b.address + b.size + 64 := tiled.next
  have placeNext := tiled.within (b := next) (by simp)
  have small := tiled.small
  unfold fitsBoth
  by_cases both : footBefore pre = true ∧ next.free = true
  · apply Returns.ifPos both
    rcases List.eq_nil_or_concat pre with rfl | ⟨more, p, rfl⟩
    · simp [footBefore] at both
    rw [List.concat_eq_append] at *
    have before : p.address + p.size + 64 = b.address := tiled.previous
    rw [if_neg (by simp), tiled.previousSize_eq]
    apply Returns.bind tiled.reads_previous
    apply Returns.bind (tiled.reads_size (b := b) (by simp))
    apply Returns.bind (tiled.reads_size (b := next) (by simp))
    simp only [SOM]
    rw [wrap_eq (by omega)]
    exact Returns.pure.to (by simp [both])
  · exact (Returns.ifNeg both Returns.pure).to (by simp [← and_assoc, both])

/-- Cases d to f, for a block that is not the last one. -/
theorem growElsewhere_step (tiled : Tiled s (pre ++ b :: next :: post))
    (inside : b.address ≠ s.globals.blockList.wilderness) (n : Nat) :
    growElsewhere b.address (if pre = [] then 0 else b.address - 32) next.address n
        (footBefore pre) next.free s =
      (if next.free = true ∧ n ≤ next.size + b.size + 64 then absorbNext b.address next.address
        else if footBefore pre = true ∧ next.free = true ∧
            n ≤ previousSize s b.address + b.size + next.size + 128 then
          absorbBoth b.address (if pre = [] then 0 else b.address - 32) next.address
        else if next.free = true ∧ next.address = s.globals.blockList.wilderness then
          if footBefore pre = true then
            growBoth b.address (if pre = [] then 0 else b.address - 32) next.address n
          else growNext b.address next.address n
        else pure 0) s := by
  unfold growElsewhere
  refine getWilderness_returns.step.trans ((congrFun (if_neg inside) s).trans ?_)
  refine (fitsNext_returns tiled n).step.trans ?_
  by_cases first : next.free = true ∧ n ≤ next.size + b.size + 64
  · rw [if_pos (decide_eq_true first), if_pos first]
  rw [if_neg (by simpa using first), if_neg first]
  refine (fitsBoth_returns tiled n).step.trans ?_
  simp only [decide_eq_true_eq]

/-- The assertions about the bytes that the break moves by, and the new break,
fail on this way. -/
def Uneven (s : State) (added : Nat) : Growth → Prop
  | .overBreak => added % 8 ≠ 0 ∨ (s.brk + added) % 8 ≠ 0
  | .bothOverBreak | .nextOverBreak => added % 8 ≠ 0
  | .intoPrevious | .previousOverBreak | .intoNext | .intoBoth | .nowhere => False

/-- What `tryMergeRealloc` comes to: no way to grow the block, or an attempt. -/
inductive Attempted (s : State) (old : List Block) (b : Block) (n : Nat) : Prop
  | without (way : growth s b.address n = .nowhere) (run : Returns (tryMergeRealloc b.address n) s 0 s)
  | made (way : growth s b.address n ≠ .nowhere)
      (attempt : Attempt s old b (tryMergeRealloc b.address n) (extension s b.address n)
        (grownSize s b.address n) (LosesWilderness s b.address n)
        (Uneven s (extension s b.address n) (growth s b.address n)))

/-- An attempt of the way that applies. -/
theorem Attempted.of_way {old : List Block} {way : Growth} {added size : Nat} {stale : Prop}
    (isWay : growth s b.address n = way) (somewhere : way ≠ .nowhere)
    (isAdded : added = n - joined s b.address way) (isSize : size = max n (joined s b.address way))
    (isStale : ¬LosesWilderness s b.address n → ¬stale)
    (attempt : Attempt s old b (tryMergeRealloc b.address n) added size stale
      (Uneven s added way)) :
    Attempted s old b n := by
  refine .made (isWay ▸ somewhere) ?_
  unfold extension grownSize
  rw [isWay, ← isAdded, ← isSize]
  cases attempt with
  | refused positive denied statistics run => exact .refused positive denied statistics run
  | failed odd uneven run => exact .failed odd uneven run
  | grown granted holds t new c run enlarged sized last =>
    exact .grown granted holds t new c run enlarged sized fun kept => last (isStale kept)

/-- The last block, with a free block before it. -/
theorem attempted_previous_last (tiled : Tiled s (more ++ [p] ++ [b])) (live : b.free = false)
    (prevFree : p.free = true) (foot : p.foot = true)
    (isLast : s.globals.blockList.wilderness = b.address) (apart : MapsApart s)
    (request : n < 2 ^ 63) (safe : ¬Overlaps s b.address n) :
    Attempted s (more ++ [p] ++ [b]) b n := by
  have step := tryMergeRealloc_previous tiled foot n
  have sized : size s.bytes b.address = b.size := (tiled.stored b (by simp)).size
  have before : previousFree s b.address = true := tiled.previousFree_eq.trans (by simp [foot])
  have previous : previousSize s b.address = p.size := tiled.previousSize_eq
  have regroup : more ++ [p] ++ [b] = more ++ [p, b] := by simp
  rw [regroup] at tiled ⊢
  by_cases beyond : p.size + b.size + 64 ≤ n
  · have way : growth s b.address n = .previousOverBreak := by
      simp [growth, before, previous, sized, isLast, beyond]
    refine .of_way way (by simp) rfl rfl (fun _ => id) (Attempt.same ?_ step)
    have joined : joined s b.address .previousOverBreak = p.size + b.size + 64 := by
      simp [joined, previous, sized]
    rw [joined, Nat.max_eq_left beyond]
    refine growIntoPrevious_extends tiled live prevFree isLast apart beyond request (fun granted => ?_) not_false
    by_contra long
    refine safe ⟨⟨by simp [way], by simpa [extension, way, joined] using granted⟩, ?_⟩
    simp only [movedLength, way, previous]
    omega
  · have way : growth s b.address n = .intoPrevious := by
      simp [growth, before, previous, sized, isLast, beyond]
    have joined : joined s b.address .intoPrevious = p.size + b.size + 64 := by
      simp [joined, previous, sized]
    refine .of_way way (by simp) (by rw [joined]; omega) (by rw [joined]; omega) (fun _ => id)
      (Attempt.same (growIntoPrevious_last tiled live prevFree isLast (by omega) ?_ not_false) step)
    by_contra long
    refine safe ⟨⟨by simp [way], Or.inl (by simp [extension, way, joined]; omega)⟩, ?_⟩
    simp only [movedLength, way, previous, sized]
    omega

/-- The wilderness is the last block also after a run of blocks became one, when
the last of the run was not the wilderness. -/
theorem lastAddress_absorbed {front back : List Block} {last c : Block} {wilderness : Nat}
    (exact : wilderness = lastAddress (front ++ last :: back)) (inside : last.address ≠ wilderness) :
    wilderness = lastAddress (pre ++ c :: back) := by
  cases back with
  | nil => exact absurd (by simpa using exact.symm) inside
  | cons first more => simpa using exact

/-- A way into the neighbours never fails. -/
theorem Attempt.absorbed {old : List Block} {program : Alloc Nat} {size : Nat} {t : State}
    {front back : List Block} {last : Block} (c : Block)
    (run : Returns program s (c.address + 32) t) (enlarged : Enlarged s old b t (pre ++ c :: back) c)
    (sized : c.size = size) (same : old = front ++ last :: back)
    (kept : t.globals.blockList.wilderness = s.globals.blockList.wilderness) {fails : Prop}
    (never : ¬fails) :
    Attempt s old b program 0 size (last.address = s.globals.blockList.wilderness) fails :=
  .grown (Or.inl rfl) never t _ c run enlarged sized fun inside exact =>
    kept.trans (lastAddress_absorbed (same ▸ exact) inside)

/-- A block whose successor is the wilderness has no other behind it. -/
theorem next_last (tiled : Tiled s (pre ++ b :: next :: post))
    (last : next.address = lastAddress (pre ++ b :: next :: post)) : post = [] := by
  have tail : Tile next.address (next :: post) s.brk := by
    have above := tiled.place.2.2
    rwa [← tiled.next] at above
  rw [lastAddress_append_cons, lastAddress_cons_cons] at last
  exact (lastAddress_eq tail).mp last.symm

/-- Past case b, a block with a free one before it goes by these tests. -/
theorem tryMergeRealloc_inside (tiled : Tiled s (more ++ [p] ++ b :: next :: post))
    (foot : p.foot = true) (inside : b.address ≠ s.globals.blockList.wilderness)
    (larger : b.size + p.size + 64 < n) : tryMergeRealloc b.address n s =
      (if next.free = true ∧ n ≤ next.size + b.size + 64 then absorbNext b.address next.address
        else if next.free = true ∧ n ≤ p.size + b.size + next.size + 128 then
          absorbBoth b.address (b.address - 32) next.address
        else if next.free = true ∧ next.address = s.globals.blockList.wilderness then
          growBoth b.address (b.address - 32) next.address n
        else pure 0) s := by
  have place : next.address = b.address + b.size + 64 := tiled.next
  have passes := (tryMergeRealloc_previous tiled foot n).trans
    (afterPrevious_passes tiled (Ne.symm inside) larger)
  have tests := growElsewhere_step tiled inside n
  simp only [footBefore_concat, foot, tiled.previousSize_eq, true_and, if_true,
    List.append_eq_nil_iff, List.cons_ne_self, and_false, if_false] at tests
  simp only [freeAfter_cons, ← place] at passes
  exact passes.trans tests

/-- The way of such a block. -/
theorem growth_inside (tiled : Tiled s (more ++ [p] ++ b :: next :: post)) (foot : p.foot = true)
    (inside : b.address ≠ s.globals.blockList.wilderness) : growth s b.address n =
      if n ≤ b.size + p.size + 64 then .intoPrevious
      else if next.free = true ∧ n ≤ next.size + b.size + 64 then .intoNext
      else if next.free = true ∧ n ≤ p.size + b.size + next.size + 128 then .intoBoth
      else if next.free = true ∧ next.address = s.globals.blockList.wilderness then .bothOverBreak
      else .nowhere := by
  have sized : size s.bytes b.address = b.size := (tiled.stored b (by simp)).size
  have before : previousFree s b.address = true := tiled.previousFree_eq.trans (by simp [foot])
  have after : nextFree s b.address = next.free := tiled.nextFree_eq
  have ends : nextAddress s b.address = next.address := tiled.nextAddress_eq.trans tiled.next.symm
  simp [growth, before, after, tiled.previousSize_eq, tiled.nextSize_eq, sized, inside, ends]

/-- A block with a free one before it, but not the last. -/
theorem attempted_previous_inside (tiled : Tiled s (more ++ [p] ++ b :: next :: post))
    (live : b.free = false) (prevFree : p.free = true) (foot : p.foot = true)
    (exact : s.globals.blockList.wilderness = lastAddress (more ++ [p] ++ b :: next :: post))
    (inside : b.address ≠ s.globals.blockList.wilderness) (apart : MapsApart s)
    (request : n < 2 ^ 63) (even : n % 8 = 0)
    (safe : ¬Overlaps s b.address n) :
    Attempted s (more ++ [p] ++ b :: next :: post) b n := by
  have adjacent : p.address + p.size + 64 = b.address := tiled.previous
  have sized : size s.bytes b.address = b.size := (tiled.stored b (by simp)).size
  have previous : previousSize s b.address = p.size := tiled.previousSize_eq
  have following : nextSize s b.address = next.size := tiled.nextSize_eq
  have place : next.address = b.address + b.size + 64 := tiled.next
  have ends : nextAddress s b.address = next.address := tiled.nextAddress_eq.trans place.symm
  have ways := growth_inside (n := n) tiled foot inside
  by_cases fits : n ≤ b.size + p.size + 64
  · rw [if_pos fits] at ways
    have step := tryMergeRealloc_previous tiled foot n
    have joined : joined s b.address .intoPrevious = p.size + b.size + 64 := by
      simp [joined, previous, sized]
    have regroup : more ++ [p] ++ b :: next :: post = more ++ [p, b] ++ next :: post := by simp
    rw [regroup] at tiled ⊢
    refine .of_way ways (by simp) (by rw [joined]; omega) (by rw [joined]; omega) (fun _ => id)
      (Attempt.same (growIntoPrevious_fits tiled live prevFree (Ne.symm inside) fits ?_ (by simp)
        not_false) step)
    by_contra long
    refine safe ⟨⟨by simp [ways], Or.inl (by simp [extension, ways, joined]; omega)⟩, ?_⟩
    simp only [movedLength, ways, previous, sized]
    omega
  rw [if_neg fits] at ways
  have dispatch := tryMergeRealloc_inside tiled foot inside (Nat.not_le.mp fits)
  by_cases intoNext : next.free = true ∧ n ≤ next.size + b.size + 64
  · rw [if_pos intoNext] at dispatch ways
    have joined : joined s b.address .intoNext = b.size + next.size + 64 := by
      simp [joined, following, sized]
    have regroup : more ++ [p] ++ b :: next :: post = more ++ [p] ++ [b, next] ++ post := by simp
    have split : more ++ [p] ++ [b, next] ++ post = more ++ [p] ++ [b] ++ next :: post := by simp
    rw [regroup] at tiled ⊢
    obtain ⟨t, run, enlarged, kept⟩ := absorbNext_grows tiled live intoNext.1
    exact .of_way ways (by simp) (by rw [joined]; omega) rfl
      (fun safe stale => safe ⟨Or.inl ways, ends.trans stale⟩)
      (Attempt.same (.absorbed (filling b.address _ false) run enlarged
        (by rw [joined]; simp only [filling]; omega) split kept not_false) dispatch)
  rw [if_neg intoNext] at dispatch ways
  by_cases intoBoth : next.free = true ∧ n ≤ p.size + b.size + next.size + 128
  · rw [if_pos intoBoth] at dispatch ways
    have joined : joined s b.address .intoBoth = p.size + b.size + next.size + 128 := by
      simp [joined, previous, following, sized]
    have regroup : more ++ [p] ++ b :: next :: post = more ++ [p, b, next] ++ post := by simp
    have split : more ++ [p, b, next] ++ post = more ++ [p, b] ++ next :: post := by simp
    have spared : b.size ≤ p.size + 48 := by
      by_contra long
      refine safe ⟨⟨by simp [ways], Or.inl (by simp [extension, ways, joined]; omega)⟩, ?_⟩
      simp only [movedLength, ways, previous, sized]
      omega
    rw [regroup] at tiled ⊢
    obtain ⟨t, run, enlarged, kept⟩ := absorbBoth_grows tiled live prevFree intoBoth.1 spared
    exact .of_way ways (by simp) (by rw [joined]; omega) rfl
      (fun safe stale => safe ⟨Or.inr ways, ends.trans stale⟩)
      (Attempt.same (.absorbed (filling p.address _ false) run enlarged
        (by rw [joined]; simp only [filling]; omega) split kept not_false) dispatch)
  rw [if_neg intoBoth] at dispatch ways
  by_cases overBreak : next.free = true ∧ next.address = s.globals.blockList.wilderness
  · rw [if_pos overBreak] at dispatch ways
    obtain rfl : post = [] := next_last tiled (overBreak.2.trans exact)
    have joined : joined s b.address .bothOverBreak = p.size + b.size + next.size + 128 := by
      simp [joined, previous, following, sized]
    have regroup : more ++ [p] ++ [b, next] = more ++ [p, b, next] := by simp
    rw [regroup] at tiled ⊢
    have larger : p.size + b.size + next.size + 128 < n := by
      by_contra short
      exact intoBoth ⟨overBreak.1, by omega⟩
    refine .of_way ways (by simp) rfl rfl (fun _ => id) (Attempt.same ?_ dispatch)
    rw [joined, Nat.max_eq_left larger.le]
    refine growBoth_grows tiled live prevFree overBreak.1 apart larger request even fun granted => ?_
    by_contra long
    refine safe ⟨⟨by simp [ways], Or.inr (by simpa [extension, ways, joined] using granted)⟩, ?_⟩
    simp only [movedLength, ways, previous, sized]
    omega
  · rw [if_neg overBreak] at dispatch ways
    exact .without ways (dispatch.trans Returns.pure)

/-- The last block, without a free block before it. -/
theorem attempted_alone_last (tiled : Tiled s (pre ++ [b])) (live : b.free = false)
    (used : footBefore pre = false) (isLast : s.globals.blockList.wilderness = b.address)
    (apart : MapsApart s) (larger : b.size < n) (request : n < 2 ^ 63) (even : n % 8 = 0) :
    Attempted s (pre ++ [b]) b n := by
  have step := tryMergeRealloc_alone tiled used n
  have sized : size s.bytes b.address = b.size := (tiled.stored b (by simp)).size
  have before : previousFree s b.address = false := tiled.previousFree_eq.trans used
  have way : growth s b.address n = .overBreak := by
    simp [growth, before, isLast]
  have joined : joined s b.address .overBreak = b.size := by
    simp [joined, sized]
  have dispatch : tryMergeRealloc b.address n s = growLast b.address n s := by
    apply step.trans
    unfold growElsewhere
    exact getWilderness_returns.step.trans (congrFun (if_pos isLast.symm) s)
  refine .of_way way (by simp) rfl rfl (fun _ => id) (Attempt.same ?_ dispatch)
  rw [joined, Nat.max_eq_left larger.le]
  exact growLast_grows tiled live apart larger request even

/-- A block without a free one before it, and not the last. -/
theorem attempted_alone_inside (tiled : Tiled s (pre ++ b :: next :: post)) (live : b.free = false)
    (used : footBefore pre = false)
    (exact : s.globals.blockList.wilderness = lastAddress (pre ++ b :: next :: post))
    (inside : b.address ≠ s.globals.blockList.wilderness) (apart : MapsApart s)
    (request : n < 2 ^ 63) (even : n % 8 = 0) :
    Attempted s (pre ++ b :: next :: post) b n := by
  have step := tryMergeRealloc_alone tiled used n
  have sized : size s.bytes b.address = b.size := (tiled.stored b (by simp)).size
  have before : previousFree s b.address = false := tiled.previousFree_eq.trans used
  have after : nextFree s b.address = next.free := tiled.nextFree_eq
  have following : nextSize s b.address = next.size := tiled.nextSize_eq
  have place : next.address = b.address + b.size + 64 := tiled.next
  have ends : nextAddress s b.address = next.address := tiled.nextAddress_eq.trans place.symm
  have dispatch : tryMergeRealloc b.address n s =
      (if next.free = true ∧ n ≤ next.size + b.size + 64 then absorbNext b.address next.address
        else if next.free = true ∧ next.address = s.globals.blockList.wilderness then
          growNext b.address next.address n
        else pure 0) s := by
    have tests := growElsewhere_step tiled inside n
    simp only [used, Bool.false_eq_true, false_and, if_false] at tests
    simp only [freeAfter_cons, ← place] at step
    exact step.trans tests
  have ways : growth s b.address n =
      if next.free = true ∧ n ≤ next.size + b.size + 64 then .intoNext
      else if next.free = true ∧ next.address = s.globals.blockList.wilderness then .nextOverBreak
      else .nowhere := by
    simp [growth, before, after, following, sized, inside, ends]
  have joinedNext : ∀ way, way = .intoNext ∨ way = .nextOverBreak →
      joined s b.address way = b.size + next.size + 64 := by
    rintro way (rfl | rfl) <;> simp [joined, following, sized]
  by_cases intoNext : next.free = true ∧ n ≤ next.size + b.size + 64
  · rw [if_pos intoNext] at dispatch ways
    have joined := joinedNext _ (Or.inl rfl)
    have regroup : pre ++ b :: next :: post = pre ++ [b, next] ++ post := by simp
    have split : pre ++ [b, next] ++ post = pre ++ [b] ++ next :: post := by simp
    rw [regroup] at tiled ⊢
    obtain ⟨t, run, enlarged, kept⟩ := absorbNext_grows tiled live intoNext.1
    exact .of_way ways (by simp) (by rw [joined]; omega) rfl
      (fun safe stale => safe ⟨Or.inl ways, ends.trans stale⟩)
      (Attempt.same (.absorbed (filling b.address _ false) run enlarged
        (by rw [joined]; simp only [filling]; omega) split kept not_false) dispatch)
  rw [if_neg intoNext] at dispatch ways
  by_cases overBreak : next.free = true ∧ next.address = s.globals.blockList.wilderness
  · rw [if_pos overBreak] at dispatch ways
    obtain rfl : post = [] := next_last tiled (overBreak.2.trans exact)
    have joined := joinedNext _ (Or.inr rfl)
    have larger : b.size + next.size + 64 < n := by
      by_contra short
      exact intoNext ⟨overBreak.1, by omega⟩
    refine .of_way ways (by simp) rfl rfl (fun _ => id) (Attempt.same ?_ dispatch)
    rw [joined, Nat.max_eq_left larger.le]
    exact growNext_grows tiled live overBreak.1 apart larger request even
  · rw [if_neg overBreak] at dispatch ways
    exact .without ways (dispatch.trans Returns.pure)

/-- The wilderness is the block that nothing follows. -/
theorem Tiled.last_iff (tiled : Tiled s (pre ++ b :: post))
    (exact : s.globals.blockList.wilderness = lastAddress (pre ++ b :: post)) :
    b.address = s.globals.blockList.wilderness ↔ post = [] := by
  rw [exact, lastAddress_append_cons, eq_comm]
  have behind : Tile b.address (b :: post) s.brk := ⟨rfl, tiled.place.2.2⟩
  exact lastAddress_eq behind

/-- `tryMergeRealloc` on a live block, when the payload does not overwrite the
links it passes over. -/
theorem tryMergeRealloc_attempted (tiled : Tiled s (pre ++ b :: post)) (live : b.free = false)
    (exact : s.globals.blockList.wilderness = lastAddress (pre ++ b :: post)) (shown : Shown pre)
    (apart : MapsApart s) (larger : b.size < n) (request : n < 2 ^ 63) (even : n % 8 = 0)
    (safe : ¬Overlaps s b.address n) : Attempted s (pre ++ b :: post) b n := by
  have isLast := tiled.last_iff exact
  cases used : footBefore pre with
  | false =>
    cases post with
    | nil => exact attempted_alone_last tiled live used (isLast.mpr rfl).symm apart larger request even
    | cons next post =>
      exact attempted_alone_inside tiled live used exact (by simp [isLast]) apart request even
  | true =>
    rcases List.eq_nil_or_concat pre with rfl | ⟨more, p, rfl⟩
    · simp [footBefore] at used
    rw [List.concat_eq_append] at *
    have foot : p.foot = true := by simpa using used
    have prevFree := shown p (by simp) foot
    cases post with
    | nil =>
      exact attempted_previous_last tiled live prevFree foot (isLast.mpr rfl).symm apart request safe
    | cons next post =>
      exact attempted_previous_inside tiled live prevFree foot exact (by simp [isLast]) apart request
        even safe

end OperatingSystems.Malloc3
