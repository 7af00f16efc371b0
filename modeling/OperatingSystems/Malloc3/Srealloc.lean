import OperatingSystems.Malloc3.Relocate

/-!
# Every way a resize ends

`srealloc` leaves a payload that is large enough, or cuts off its end. It grows
a smaller one in place, which may end with a cut as well, and moves what it
cannot grow. A resize that would overwrite links, leave the wilderness behind or
cut a mapping is not safe; every other one either replaces the payload by one
with the same bytes, or the program stops.
-/

namespace OperatingSystems.Malloc3

open Bytes Process MallocMetadata Tiling Payloads

variable {s t u : State} {pre post old mid new blocks : List Block} {b c : Block} {n q : Nat}
  {o z : Nat × Nat}

/-- The room before and behind a block, by what the allocator reads. -/
theorem Tiled.gainBefore_eq (tiled : Tiled s (pre ++ b :: post)) :
    gainBefore pre = if previousFree s b.address then previousSize s b.address + 64 else 0 := by
  rw [tiled.previousFree_eq]
  rcases List.eq_nil_or_concat pre with rfl | ⟨more, p, rfl⟩
  · rfl
  · rw [List.concat_eq_append] at *
    rw [gainBefore_concat, footBefore_concat, tiled.previousSize_eq]

theorem Tiled.gainAfter_eq (tiled : Tiled s (pre ++ b :: post)) :
    gainAfter post = if nextFree s b.address then nextSize s b.address + 64 else 0 := by
  rw [tiled.nextFree_eq]
  cases post with
  | nil => rfl
  | cons next post => rw [gainAfter_cons, freeAfter_cons, tiled.nextSize_eq]

/-- The last block has nothing free behind it. -/
theorem Sound.last_alone (sound : Sound s (pre ++ b :: post))
    (isLast : b.address = s.globals.blockList.wilderness) : nextFree s b.address = false := by
  have behind : Tile b.address (b :: post) s.brk := ⟨rfl, sound.tiled.place.2.2⟩
  rw [sound.wilderness, lastAddress_append_cons, eq_comm, lastAddress_eq behind] at isLast
  rw [sound.tiled.nextFree_eq, isLast]
  rfl

/-- A block that does not grow in place is too small also with its free
neighbours. -/
theorem Sound.short (sound : Sound s (pre ++ b :: post)) (larger : b.size < n)
    (fails : growth s b.address n = .nowhere ∨ 0 < extension s b.address n) :
    (b.merged pre post).size < n := by
  have tiled := sound.tiled
  have sized : size s.bytes b.address = b.size := (tiled.stored b (by simp)).size
  have alone := sound.last_alone
  have whole : (b.merged pre post).size = b.size + gainBefore pre + gainAfter post := rfl
  rw [whole, tiled.gainBefore_eq, tiled.gainAfter_eq]
  unfold extension growth at fails
  rw [sized] at fails
  generalize s.globals.blockList.wilderness = wilderness at fails alone
  generalize previousFree s b.address = before at fails ⊢
  generalize nextFree s b.address = after at fails alone ⊢
  by_cases isLast : b.address = wilderness
  · subst isLast
    obtain rfl := alone rfl
    cases before <;> simp [joined, sized] at fails ⊢
    · omega
    · split_ifs at fails <;> simp at fails <;> omega
  · cases before <;> cases after <;> simp [joined, sized, isLast] at fails ⊢
    · exact larger
    all_goals split_ifs at fails <;> simp at fails <;> omega

/-- A free neighbour of a block has an aligned size when every block has. -/
theorem Tiled.previousSize_even (tiled : Tiled s (pre ++ b :: post))
    (aligned : Aligned (pre ++ b :: post)) (free : previousFree s b.address = true) :
    previousSize s b.address % 8 = 0 := by
  rw [tiled.previousFree_eq] at free
  rcases List.eq_nil_or_concat pre with rfl | ⟨more, p, rfl⟩
  · simp [footBefore] at free
  · rw [List.concat_eq_append] at *
    rw [tiled.previousSize_eq]
    exact aligned p (by simp)

theorem Tiled.nextSize_even (tiled : Tiled s (pre ++ b :: post))
    (aligned : Aligned (pre ++ b :: post)) (free : nextFree s b.address = true) :
    nextSize s b.address % 8 = 0 := by
  rw [tiled.nextFree_eq] at free
  cases post with
  | nil => simp [freeAfter] at free
  | cons next post =>
    rw [tiled.nextSize_eq]
    exact aligned next (by simp)

/-- Growing to an aligned size joins aligned blocks to an aligned one. -/
theorem Tiled.grownSize_even (tiled : Tiled s (pre ++ b :: post))
    (aligned : Aligned (pre ++ b :: post)) (even : n % 8 = 0) :
    grownSize s b.address n % 8 = 0 := by
  have sized : size s.bytes b.address = b.size := (tiled.stored b (by simp)).size
  have own : b.size % 8 = 0 := aligned b (by simp)
  have before := tiled.previousSize_even aligned
  have after := tiled.nextSize_even aligned
  have joins : joined s b.address (growth s b.address n) % 8 = 0 := by
    unfold growth
    split_ifs <;> simp only [joined, sized] <;> grind
  unfold grownSize
  rcases Nat.le_total n (joined s b.address (growth s b.address n)) with short | long
  · rw [Nat.max_eq_right short]
    exact joins
  · rw [Nat.max_eq_left long]
    exact even

/-- What the code can do about a request for more: grow the block in place, or
free it and find another one. An answer that was used up on the way is gone. -/
def Extendable (s : State) (pre : List Block) (b : Block) (post : List Block) (n : Nat) : Prop :=
  Grows s b.address (roundUp n) ∨
    Replaceable (if growth s b.address (roundUp n) = .nowhere then s else answered s) pre b post n

/-- The upper parts that growing a small block of the heap may cut off are smaller
than the threshold. -/
def SmallGrowth (s : State) (a n : Nat) : Prop :=
  if Grows s a (roundUp n) then SmallCut (grownSize s a (roundUp n)) n else SmallRequest s n

/-- A block that grew in place is cut at a multiple of 8 only. -/
def EvenGrowth (s : State) (a n : Nat) : Prop :=
  Grows s a (roundUp n) → splits (grownSize s a (roundUp n)) n → n % 8 = 0

instance (s : State) (a n : Nat) : Decidable (SmallGrowth s a n) := by
  unfold SmallGrowth
  exact inferInstance

instance (s : State) (a n : Nat) : Decidable (EvenGrowth s a n) :=
  inferInstanceAs (Decidable (_ → _ → _))

/-- How growing a payload ends: there is no memory for it, an assertion fails, or
the payload is replaced. -/
inductive Grew (s : State) (old : List Block) (o : Nat × Nat) (n : Nat) (can small even : Prop)
    (program : Alloc Nat) : Prop
  | stranded (cannot : ¬can) (run : Faults program s .segv)
  | failed (odd : ¬Aligned old) (run : Faults program s .assertion)
  | moved (able : can) (q : Nat) (t : State) (new : List Block) (run : Returns program s q t)
      (resized : Resized s old o n q t new) (strays : small → t.strayUnmaps = s.strayUnmaps)
      (aligned : even → Aligned old → Aligned new)

/-- Copies of a payload one after the other. -/
theorem Carried.trans {m : Nat × Nat} (first : Carried s t o m) (second : Carried t u m z)
    (covers : o.2 ≤ m.2) : Carried s u o z := fun i inSource inTarget =>
  (second i (by omega) inTarget).trans (first i inSource (by omega))

/-- A replacement may be replaced in its turn. -/
theorem Resized.trim {m capacity : Nat} (transfer : Transfer s old t mid [o] [(q, m)])
    (carried : Carried s t o (q, m)) (covers : o.2 ≤ m)
    (cut : Transfer t mid u new [(q, m)] [(q, capacity)])
    (kept : Carried t u (q, m) (q, capacity)) (fits : n ≤ capacity) : Resized s old o n q u new :=
  ⟨capacity, fits, transfer.trans cut (List.Perm.refl _), carried.trans kept covers⟩

/-- Counters and answers to come are no part of a sound state. -/
theorem Sound.counted (sound : Sound s blocks) (statistics : Statistics) :
    Sound (withStatistics (Malloc3.answered s) statistics) blocks where
  tiled := sound.tiled.congr rfl
  wilderness := sound.wilderness
  shown := sound.shown
  mappings := ⟨sound.mappings.apart, sound.mappings.holds, sound.mappings.separate⟩

/-- `srealloc` of a block below the threshold that is too small. -/
theorem srealloc_grows_step (sound : Sound s (pre ++ b :: post)) (small : b.size < MMAP_THRESHOLD)
    (larger : b.size < n) (request : n ≤ 100000000) :
    srealloc (b.address + 32) n s = (do
      let payload ← tryMergeRealloc b.address (roundUp n)
      if payload ≠ 0 then trimGrown n payload else relocate (b.address + 32) n) s := by
  have reads : Returns (readSize (b.address + 32 - SOM)) s b.size s := by
    simp only [SOM, Nat.add_sub_cancel]
    exact sound.tiled.reads_size (b := b) (by simp)
  unfold srealloc
  rw [if_neg (by omega), if_neg (by omega)]
  apply reads.step.trans
  rw [if_neg (by omega), if_pos small, SOM, Nat.add_sub_cancel]

/-- Moving a block after nothing, or an answer and a count, was lost in the attempt to
grow it. -/
theorem Grew.of_relocate {w : State} (statistics : Statistics) (sound : Sound s (pre ++ b :: post))
    (live : b.free = false) (small : b.size < MMAP_THRESHOLD) (positive : 0 < b.size)
    (short : (b.merged pre post).size < roundUp n)
    (lost : w = s ∨ w = withStatistics (answered s) statistics) (able : Prop)
    (whether : able ↔ Replaceable w pre b post n) (guarded : Prop)
    (cuts : guarded → SmallRequest s n) (even : Prop) {program : Alloc Nat}
    (same : program s = relocate (b.address + 32) n w) :
    Grew s (pre ++ b :: post) (b.address + 32, b.size) n able guarded even program := by
  have start : Sound w (pre ++ b :: post) := by
    rcases lost with rfl | rfl
    · exact sound
    · exact sound.counted statistics
  have kept : w.maps = s.maps ∧ w.bytes = s.bytes ∧ w.strayUnmaps = s.strayUnmaps := by
    rcases lost with rfl | rfl <;> exact ⟨rfl, rfl, rfl⟩
  obtain ⟨maps, bytes, stray⟩ := kept
  rcases relocate_outcome start live small positive short with
    ⟨cannot, run⟩ | ⟨can, q, t, new, run, ⟨capacity, fits, transfer, carried⟩, exactly, aligned⟩
  · exact .stranded (mt whether.mp cannot) (same.trans run)
  · refine .moved (whether.mpr can) q t new (same.trans run) ⟨capacity, fits, ⟨transfer.sound, ?_⟩, ?_⟩
      (fun guard => ?_) fun _ => aligned
    · have ledger := transfer.ledger
      rwa [maps, bytes] at ledger
    · intro i inSource inTarget
      rw [← bytes]
      exact carried i inSource inTarget
    · have request := (start.tiled.smallRequest.mpr (sound.tiled.smallRequest.mp (cuts guard)))
      exact (exactly request).strays.trans stray

/-- Growing a block below the threshold. -/
theorem srealloc_grows (sound : Sound s (pre ++ b :: post)) (live : b.free = false)
    (small : b.size < MMAP_THRESHOLD) (positive : 0 < b.size) (larger : b.size < n)
    (request : n ≤ 100000000) (apart : ¬Overlaps s b.address (roundUp n))
    (found : ¬LosesWilderness s b.address (roundUp n)) :
    Grew s (pre ++ b :: post) (b.address + 32, b.size) n (Extendable s pre b post n)
      (SmallGrowth s b.address n) (EvenGrowth s b.address n) (srealloc (b.address + 32) n) := by
  have tiled := sound.tiled
  have step := srealloc_grows_step sound small larger request
  obtain ⟨least, most, even⟩ := roundUp_le (n := n)
  obtain ⟨length, isLength⟩ : ∃ length, length = roundUp n := ⟨_, rfl⟩
  have attempted := tryMergeRealloc_attempted tiled live sound.wilderness
    (fun c member => sound.shown c (by simp [member])) sound.mappings.apart
    (n := roundUp n) (by omega) (by omega) even apart
  cases attempted with
  | without way run =>
    have short := sound.short (n := roundUp n) (by omega) (Or.inl way)
    have idle : ¬Grows s b.address (roundUp n) := fun grows => grows.1 way
    refine .of_relocate s.globals.statistics sound live small positive short
      (Or.inl rfl) _ ?_ _ ?_ _ (step.trans (run.step.trans (congrFun (if_neg (by simp)) _)))
    · simp [Extendable, idle, way]
    · intro guard
      rwa [SmallGrowth, if_neg idle] at guard
  | made way attempt =>
    cases attempt with
    | failed odd _ run => exact .failed odd (step.trans run.bind)
    | refused missing denied statistics run =>
      have short := sound.short (n := roundUp n) (by omega) (Or.inr missing)
      have idle : ¬Grows s b.address (roundUp n) := fun grows =>
        grows.2.elim (fun none => by omega) denied
      refine .of_relocate statistics sound live small positive short
        (Or.inr rfl) _ ?_ _ ?_ _ (step.trans (run.step.trans (congrFun (if_neg (by simp)) _)))
      · simp only [Extendable, idle, way, if_false, false_or]
        exact Iff.rfl
      · intro guard
        rwa [SmallGrowth, if_neg idle] at guard
    | grown granted _ t mid c run enlarged sized last =>
      have grows : Grows s b.address (roundUp n) := ⟨way, granted⟩
      have transfer := enlarged.transfer sound (last found sound.wilderness)
      obtain ⟨rest, _, after⟩ := enlarged.used
      obtain ⟨member, used⟩ := mem_inUse.mp (after.mem_iff.mpr (List.mem_cons_self))
      have covers : roundUp n ≤ c.size := sized ▸ Nat.le_max_left _ _
      obtain ⟨u, new, capacity, cut, fits, trimmed, carried, exactly, aligned⟩ :=
        trim_returns transfer.sound member used (by omega) request (by omega)
      refine .moved (Or.inl grows) (c.address + 32) u new (step.trans (run.step.trans ?_))
        (Resized.trim transfer enlarged.carried (by simp only; omega) trimmed carried fits)
        (fun guard => ?_) fun guard before => ?_
      · have reads : Returns (readSize (c.address + 32 - SOM)) t c.size t := by
          simp only [SOM, Nat.add_sub_cancel]
          exact transfer.sound.tiled.reads_size member
        refine (congrFun (if_pos (by simp)) _).trans ?_
        unfold trimGrown
        simp only [SOM, Nat.add_sub_cancel] at reads ⊢
        exact Returns.bind reads (Returns.bind cut Returns.pure)
      · rw [SmallGrowth, if_pos grows, ← sized] at guard
        exact (exactly guard).strays.trans enlarged.strays
      · rw [EvenGrowth, ← sized] at guard
        refine aligned (guard grows) (enlarged.aligned ?_ before)
        rw [sized]
        exact tiled.grownSize_even before even

/-- A resize that moves no payload over a link, absorbs no wilderness without
saying so, and cuts no mapping. -/
def SafeResize (s : State) (p n : Nat) : Prop :=
  0 < n → n ≤ 100000000 →
    if n ≤ blockSize s p then OnHeap s p ∨ ¬splits (blockSize s p) n
    else blockSize s p < MMAP_THRESHOLD →
      ¬Overlaps s (p - 32) (roundUp n) ∧ ¬LosesWilderness s (p - 32) (roundUp n)

/-- Every block of the heap that a resize hands to `sfree` is smaller than the
threshold: the old block, the upper part of a cut, and that of a cut for the
new block. -/
def SmallResize (s : State) (p n : Nat) : Prop :=
  0 < n → n ≤ 100000000 →
    if n ≤ blockSize s p then SmallCut (blockSize s p) n
    else if blockSize s p < MMAP_THRESHOLD then SmallGrowth s (p - 32) n
    else ¬OnHeap s p ∧ SmallRequest s n

/-- A resize cuts at a multiple of 8 only. -/
def EvenResize (s : State) (p n : Nat) : Prop :=
  0 < n → n ≤ 100000000 →
    if n ≤ blockSize s p then splits (blockSize s p) n → n % 8 = 0
    else blockSize s p < MMAP_THRESHOLD → EvenGrowth s (p - 32) n

instance (s : State) (p n : Nat) : Decidable (SafeResize s p n) := by
  unfold SafeResize
  exact inferInstance

instance (s : State) (p n : Nat) : Decidable (SmallResize s p n) := by
  unfold SmallResize
  exact inferInstance

instance (s : State) (p n : Nat) : Decidable (EvenResize s p n) := by
  unfold EvenResize
  exact inferInstance

/-- A payload has room for `n` bytes, or something can be done about it. -/
def Resizable (s : State) (blocks : List Block) (o : Nat × Nat) (n : Nat) : Prop :=
  0 < n ∧ n ≤ 100000000 ∧ (o.2 < n →
    if o.2 < MMAP_THRESHOLD then
      ∃ pre b post, blocks = pre ++ b :: post ∧ o = (b.address + 32, b.size) ∧
        Extendable s pre b post n
    else Satisfiable s blocks n)

/-- A payload is known by its address. -/
theorem Sound.onHeap_iff (sound : Sound s blocks) (member : o ∈ owned blocks s.maps) :
    OnHeap s o.1 ↔ ∃ b ∈ blocks, b.free = false ∧ o = (b.address + 32, b.size) := by
  rcases mem_owned.mp member with known | ⟨region, listed, rfl⟩
  · obtain ⟨b, listed, _, rfl⟩ := id known
    exact ⟨fun _ => known, fun _ => (sound.onHeap listed).1⟩
  · refine ⟨fun place => absurd place (sound.offHeap listed), ?_⟩
    rintro ⟨b, inHeap, _, same⟩
    have place := (sound.onHeap inHeap).1
    rw [← (Prod.mk.inj same).1] at place
    exact absurd place (sound.offHeap listed)

/-- Leaving a payload as it is. -/
theorem Sound.kept (sound : Sound s blocks) (member : o ∈ owned blocks s.maps) (fits : n ≤ o.2) :
    Resized s blocks o n o.1 s blocks :=
  ⟨o.2, fits, ⟨sound, _, List.perm_cons_erase member, List.perm_cons_erase member, fun _ _ => rfl⟩,
    fun _ _ _ => rfl⟩

/-- A block of the heap has one place in the list. -/
theorem Tiled.split_unique (tiled : Tiled s (pre ++ b :: post)) {before after : List Block}
    (same : pre ++ b :: post = before ++ c :: after) (address : b.address = c.address) :
    pre = before ∧ b = c ∧ post = after := by
  have whole : b = c := tiled.tiles.unique Block.extent_pos (by simp) (by rw [same]; simp) address
  subst whole
  have distinct := (tiled.tiles.nodup Block.extent_pos).of_map
  have once := List.nodup_middle.mp distinct
  have absent := (List.nodup_cons.mp once).1
  rw [List.mem_append, not_or] at absent
  exact (List.append_cons_inj_of_notMem absent.1 absent.2).mp same

/-- `srealloc` to a size that the payload has room for. -/
theorem srealloc_keeps (sound : Sound s blocks) (member : o ∈ owned blocks s.maps)
    (safe : SafeResize s o.1 n) (low : 0 < n) (high : n ≤ 100000000) (fits : n ≤ o.2) :
    Grew s blocks o n (Resizable s blocks o n) (SmallResize s o.1 n) (EvenResize s o.1 n)
      (srealloc o.1 n) := by
  have outside : ¬(n = 0 ∨ 100000000 < n) := by omega
  have sized : blockSize s o.1 = o.2 := (sound.capacity member).2.2
  have safely := safe low high
  have able : Resizable s blocks o n := ⟨low, high, fun larger => absurd fits (by omega)⟩
  by_cases place : OnHeap s o.1
  · obtain ⟨b, listed, live, rfl⟩ := (sound.onHeap_iff member).mp place
    obtain ⟨q, t, new, run, outcome, exactly, aligned⟩ := srealloc_heap sound listed live fits
    rcases outcome with ⟨_, _, _, invalid⟩ | ⟨rfl, capacity, enough, transfer, carried⟩
    · exact absurd invalid outside
    refine .moved able _ t new run ⟨capacity, enough, transfer, carried⟩ (fun small => ?_)
      fun even => ?_
    · have cut := small low high
      rw [sized, if_pos fits] at cut
      exact (exactly fun _ _ => cut).strays
    · have trim := even low high
      rw [sized, if_pos fits] at trim
      exact aligned fun _ _ => trim
  · rw [sized, if_pos fits] at safely
    have whole := safely.resolve_left place
    refine .moved able o.1 s blocks ?_ (sound.kept member fits) (fun _ => rfl) fun _ => id
    have reads : Returns (readSize (o.1 - SOM)) s o.2 s :=
      (readSize_returns (sound.capacity member).2.1).to (sound.capacity member).2.2
    have proper := owned_proper member
    unfold srealloc
    refine Returns.ifNeg outside (Returns.ifNeg proper (Returns.bind reads (Returns.ifPos fits ?_)))
    exact Returns.bind (doIf_neg whole) Returns.pure

/-- `srealloc` of a payload of the heap to a larger size. -/
theorem srealloc_extends (sound : Sound s blocks) (member : o ∈ owned blocks s.maps)
    (positive : 0 < o.2) (safe : SafeResize s o.1 n) (low : 0 < n) (high : n ≤ 100000000)
    (larger : o.2 < n) (small : o.2 < MMAP_THRESHOLD) :
    Grew s blocks o n (Resizable s blocks o n) (SmallResize s o.1 n) (EvenResize s o.1 n)
      (srealloc o.1 n) := by
  have fits : ¬n ≤ o.2 := Nat.not_le.mpr larger
  have sized : blockSize s o.1 = o.2 := (sound.capacity member).2.2
  have safely := safe low high
  rw [sized, if_neg fits] at safely
  have place : OnHeap s o.1 := by
    rcases mem_owned.mp member with ⟨b, listed, _, rfl⟩ | ⟨region, listed, rfl⟩
    · exact (sound.onHeap listed).1
    · have := sound.mappings.length listed
      simp only at small
      omega
  obtain ⟨b, listed, live, rfl⟩ := (sound.onHeap_iff member).mp place
  obtain ⟨pre, post, rfl⟩ := List.append_of_mem listed
  simp only [Nat.add_sub_cancel] at safely
  obtain ⟨apart, found⟩ := safely small
  have grew := srealloc_grows sound live small positive larger high apart found
  have able : Resizable s (pre ++ b :: post) (b.address + 32, b.size) n ↔
      Extendable s pre b post n := by
    simp only [Resizable, low, high, true_and, larger, forall_true_left, if_pos small]
    refine ⟨?_, fun can => ⟨pre, b, post, rfl, rfl, can⟩⟩
    rintro ⟨others, c, more, same, isB, can⟩
    obtain ⟨rfl, rfl, rfl⟩ := sound.tiled.split_unique same (by simpa using (Prod.mk.inj isB).1)
    exact can
  cases grew with
  | stranded cannot run => exact .stranded (mt able.mp cannot) run
  | failed odd run => exact .failed odd run
  | moved can q t new run resized strays aligned =>
    refine .moved (able.mpr can) q t new run resized (fun guard => strays ?_) fun even => aligned ?_
    · have growing := guard low high
      rwa [sized, if_neg fits, if_pos small, Nat.add_sub_cancel] at growing
    · have growing := even low high
      rw [sized, if_neg fits, Nat.add_sub_cancel] at growing
      exact growing small

/-- `srealloc` of a large payload to a larger size. -/
theorem srealloc_remaps (sound : Sound s blocks) (member : o ∈ owned blocks s.maps)
    (positive : 0 < o.2) (low : 0 < n) (high : n ≤ 100000000) (larger : o.2 < n)
    (small : ¬o.2 < MMAP_THRESHOLD) :
    Grew s blocks o n (Resizable s blocks o n) (SmallResize s o.1 n) (EvenResize s o.1 n)
      (srealloc o.1 n) := by
  have outside : ¬(n = 0 ∨ 100000000 < n) := by omega
  have fits : ¬n ≤ o.2 := Nat.not_le.mpr larger
  have sized : blockSize s o.1 = o.2 := (sound.capacity member).2.2
  have able : Resizable s blocks o n ↔ Satisfiable s blocks n := by
    simp only [Resizable, low, high, true_and, larger, forall_true_left, if_neg small]
  have step : srealloc o.1 n s = remap o.1 n s := by
    have reads : Returns (readSize (o.1 - SOM)) s o.2 s :=
      (readSize_returns (sound.capacity member).2.1).to (sound.capacity member).2.2
    unfold srealloc
    rw [if_neg outside, if_neg (owned_proper member)]
    apply reads.step.trans
    rw [if_neg fits, if_neg small]
  rcases remap_outcome sound member positive larger with
    ⟨cannot, run⟩ | ⟨can, q, t, new, capacity, run, enough, transfer, carried, exactly, aligned⟩
  · exact .stranded (mt able.mp cannot) (step.trans run)
  · refine .moved (able.mpr can) q t new (step.trans run) ⟨capacity, enough, transfer, carried⟩
      (fun guard => ?_) fun _ => aligned
    have recognised := guard low high
    rw [sized, if_neg fits, if_neg small] at recognised
    refine (exactly recognised.2 (Or.inr ?_)).strays
    rcases mem_owned.mp member with known | mapping
    · exact absurd ((sound.onHeap_iff member).mpr known) recognised.1
    · exact mapping

/-- Every safe resize of a payload ends in one of these ways. -/
theorem srealloc_outcome (sound : Sound s blocks) (member : o ∈ owned blocks s.maps)
    (positive : 0 < o.2) (safe : SafeResize s o.1 n) :
    (n = 0 ∨ 100000000 < n) ∧ Returns (srealloc o.1 n) s 0 s ∨
      Grew s blocks o n (Resizable s blocks o n) (SmallResize s o.1 n) (EvenResize s o.1 n)
        (srealloc o.1 n) := by
  by_cases outside : n = 0 ∨ 100000000 < n
  · exact Or.inl ⟨outside, Returns.ifPos outside Returns.pure⟩
  apply Or.inr
  have low : 0 < n := by omega
  have high : n ≤ 100000000 := by omega
  by_cases fits : n ≤ o.2
  · exact srealloc_keeps sound member safe low high fits
  · have larger : o.2 < n := Nat.not_le.mp fits
    by_cases small : o.2 < MMAP_THRESHOLD
    · exact srealloc_extends sound member positive safe low high larger small
    · exact srealloc_remaps sound member positive low high larger small

end OperatingSystems.Malloc3
