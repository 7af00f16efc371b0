import OperatingSystems.Malloc3.Calls

/-!
# Growing a block in place

`tryMergeRealloc` grows a live block into the free block before it, into the
free block behind it, into both, or over the break. In every case a run of
adjacent blocks, of which only the grown one is in use, becomes one block in
use; when the run starts below the block, its payload moves down.

The payload moves while the headers it passes over are still listed. The move
spares their links exactly when the payload is at most 48 bytes longer than the
free block before it.
-/

namespace OperatingSystems.Malloc3

open Bytes Process MallocMetadata Tiling Payloads

variable {s t : State} {pre post front mid back old new blocks : List Block} {b c n p : Block}
  {a e : Nat} {order : List Nat}

/-- The bytes after a header was written for a block in use. -/
def headed (bytes : Memory) (a total : Nat) : Memory := setFree (setSize bytes a total) a false

/-- The header is written, and nothing else. -/
theorem headed_fields (bytes : Memory) (a total : Nat) (small : total < 2 ^ 64) :
    size (headed bytes a total) a = total ∧ isFree (headed bytes a total) a = false ∧
      Set.EqOn (headed bytes a total) bytes (cells a 9)ᶜ := by
  have flagged : Set.EqOn (headed bytes a total) (setSize bytes a total) (cells (a + 8) 1)ᶜ :=
    setFree_outside
  refine ⟨?_, isFree_setFree, (flagged.mono ?_).trans (setSize_outside.mono ?_)⟩
  · refine (size_frame flagged fun x low high => ?_).trans (size_setSize small)
    simp only [mem_cells]
    omega
  all_goals
    refine Set.compl_subset_compl.mpr fun x inside => ?_
    simp only [mem_cells] at inside ⊢
    omega

/-- The stale headers of an interval do not overlap its first one. -/
theorem Opened.later (opened : Opened s pre post a e order []) (first : a ∈ order) :
    ∀ m ∈ order, m = a ∨ a + 32 ≤ m := by
  obtain ⟨nodes, perm, linked, _⟩ := opened.listed
  intro m member
  have inside := opened.within m (by simp [member])
  have listed : ∀ {x}, x ∈ order → x ∈ nodes := fun {x} here => perm.mem_iff.mpr (by simp [here])
  rcases linked.beside (listed first) m (listed member) with same | apart
  · exact Or.inl same.symm
  · unfold Apart at apart
    omega

/-- Writing the first header keeps the interval open. -/
theorem Opened.head (opened : Opened s pre post a e order []) (first : a ∈ order)
    (room : a + 64 ≤ e) {total : Nat} (small : total < 2 ^ 64) :
    Opened (s.withBytes (headed s.bytes a total)) pre post a e order [] := by
  refine opened.write (headed_fields _ _ _ small).2.2 (fun x inside => ?_) (fun m member x inside => ?_)
    (fun m member => absurd member List.not_mem_nil)
  · simp only [mem_cells] at inside
    omega
  · simp only [mem_cells] at inside
    rcases opened.later first m (by simpa using member) with rfl | above
    · omega
    · omega

/-- Close the interval as one block in use. A payload at its front stays, when
every other header lies behind it. -/
theorem Opened.settle (opened : Opened s pre post a e order []) (first : a ∈ order)
    (sized : size s.bytes a = e - a - 64) (flag : isFree s.bytes a = false) (length : Nat)
    (inside : a + length + 64 ≤ e) (behind : ∀ m ∈ order, m = a ∨ a + length + 16 ≤ m) :
    ∃ bytes head delta,
      (∀ {β : Type} {rest : Alloc β} {r : β} {u : State},
        Returns rest (relink s bytes head delta) r u →
        Returns (order.foldr (fun n rest => removeMetadata n >>= fun _ => rest)
          (addMetadata a >>= fun _ => copyFooter a >>= fun _ => rest)) s r u) ∧
      Tiled (relink s bytes head delta) (pre ++ filling a e false :: post) ∧
      (∀ i, i < length → bytes (a + 32 + i) = s.bytes (a + 32 + i)) ∧
      Set.EqOn bytes s.bytes (linkCells ((pre ++ post).map Block.address) ∪ cells a (e - a))ᶜ := by
  obtain ⟨bytes, head, delta, run, closed, frame⟩ :=
    opened.rejoin order first (by omega) sized flag
  refine ⟨bytes, head, delta, run, closed, fun i short => frame ?_, frame.mono ?_⟩
  · rintro (⟨m, listed, here⟩ | footer)
    · rcases List.mem_append.mp listed with own | outside
      · have := behind m own
        omega
      · obtain ⟨b, known, rfl⟩ := List.mem_map.mp outside
        have := opened.beside known
        omega
    · simp only [mem_cells] at footer
      omega
  · apply Set.compl_subset_compl.mpr
    rintro x (⟨m, listed, here⟩ | footer)
    · rcases List.mem_append.mp listed with own | outside
      · have := opened.within m (by simp [own])
        apply Or.inr
        simp only [mem_cells]
        omega
      · exact Or.inl ⟨m, outside, here⟩
    · apply Or.inr
      simp only [mem_cells] at footer ⊢
      omega

/-- Move a payload to the front of the interval, then close it as one block in
use. No header inside the interval is hit by the move. -/
theorem Opened.gather (opened : Opened s pre post a e order []) (first : a ∈ order)
    (sized : size s.bytes a = e - a - 64) (flag : isFree s.bytes a = false) {source : Nat} (length : Nat)
    (inside : a + length + 64 ≤ e) (spared : ∀ m ∈ order, m = a ∨ a + length + 16 ≤ m)
    (readable : s.Mapped source length) :
    ∃ bytes head delta,
      (∀ {β : Type} {rest : Alloc β} {r : β} {u : State},
        Returns rest (relink s bytes head delta) r u →
        Returns (memmove (a + 32) source length >>= fun _ =>
          order.foldr (fun n rest => removeMetadata n >>= fun _ => rest)
            (addMetadata a >>= fun _ => copyFooter a >>= fun _ => rest)) s r u) ∧
      Tiled (relink s bytes head delta) (pre ++ filling a e false :: post) ∧
      (∀ i, i < length → bytes (a + 32 + i) = s.bytes (source + i)) ∧
      Set.EqOn bytes s.bytes (linkCells ((pre ++ post).map Block.address) ∪ cells a (e - a))ᶜ := by
  have moved : Set.EqOn (copy s.bytes (a + 32) source length) s.bytes (cells (a + 32) length)ᶜ :=
    copy_outside _ _ _ _
  have written := opened.write moved
    (fun x here => by simp only [mem_cells] at here; omega)
    (fun m member x here => by
      have := spared m (by simpa using member)
      simp only [mem_cells] at here
      omega)
    (fun m member => absurd member List.not_mem_nil)
  have sizedNow : size (copy s.bytes (a + 32) source length) a = e - a - 64 :=
    (size_frame moved fun x low high => by simp only [mem_cells]; omega).trans sized
  have flagNow : isFree (copy s.bytes (a + 32) source length) a = false :=
    (isFree_frame moved fun x low high => by simp only [mem_cells]; omega).trans flag
  obtain ⟨bytes, head, delta, run, closed, carried, frame⟩ :=
    written.settle first sizedNow flagNow length inside spared
  refine ⟨bytes, head, delta, fun after => ?_, closed, fun i short => ?_, frame.trans (moved.mono ?_)⟩
  · exact Returns.bind (memmove_returns readable (opened.mapped (by omega) (by omega))) (run after)
  · exact (carried i short).trans (copy_inside _ _ _ _ _ short)
  · refine Set.compl_subset_compl.mpr fun x here => Or.inr ?_
    simp only [mem_cells] at here ⊢
    omega

/-- What growing the block `b` into the block `c` achieves. -/
structure Enlarged (s : State) (old : List Block) (b : Block) (t : State) (new : List Block)
    (c : Block) : Prop where
  tiled : Tiled t new
  used : ∃ rest, (inUse old).Perm (b :: rest) ∧ (inUse new).Perm (c :: rest)
  shown : Shown old → Shown new
  heapStart : t.heapStart = s.heapStart
  maps : t.maps = s.maps
  grows : s.brk ≤ t.brk
  apart : MapsApart s → MapsApart t
  strays : t.strayUnmaps = s.strayUnmaps
  counters : s.globals.statistics = tally old s.maps → t.globals.statistics = tally new t.maps
  coalesced : Coalesced old → Coalesced new
  aligned : c.size % 8 = 0 → Aligned old → Aligned new
  carried : Carried s t (b.address + 32, b.size) (c.address + 32, c.size)
  frame : Set.EqOn t.bytes s.bytes (records old ∪ cells c.address c.extent)ᶜ

/-- Both parts of a coalesced list are coalesced. -/
theorem Coalesced.parts (coalesced : Coalesced (front ++ back)) :
    Coalesced front ∧ Coalesced back := by
  obtain ⟨ahead, behind, _⟩ := List.isChain_append.mp coalesced.apart
  exact ⟨⟨fun c member => coalesced.agree c (by simp [member]), ahead⟩,
    ⟨fun c member => coalesced.agree c (by simp [member]), behind⟩⟩

/-- A run of blocks with one of them in use that has become one block in use. -/
theorem Enlarged.of_filling (alone : inUse mid = [b])
    (closed : Tiled t (front ++ filling a e false :: back)) (heapStart : t.heapStart = s.heapStart)
    (maps : t.maps = s.maps) (grows : s.brk ≤ t.brk) (apart : MapsApart s → MapsApart t)
    (strays : t.strayUnmaps = s.strayUnmaps)
    (counters : s.globals.statistics = tally (front ++ mid ++ back) s.maps →
      t.globals.statistics = tally (front ++ filling a e false :: back) t.maps)
    (carried : ∀ i, i < b.size → t.bytes (a + 32 + i) = s.bytes (b.address + 32 + i))
    (room : a + 64 ≤ e)
    (frame : Set.EqOn t.bytes s.bytes
      (linkCells ((front ++ back).map Block.address) ∪ cells a (e - a))ᶜ) :
    Enlarged s (front ++ mid ++ back) b t (front ++ filling a e false :: back)
      (filling a e false) where
  tiled := closed
  used := by
    refine ⟨inUse front ++ inUse back, ?_, ?_⟩
    · simp [alone, List.perm_middle]
    · simp [filling, List.perm_middle]
  shown := by
    intro shown c member
    rcases List.mem_append.mp member with inFront | member
    · exact shown c (by simp [inFront])
    rcases List.mem_cons.mp member with rfl | inBack
    · simp [filling]
    · exact shown c (by simp [inBack])
  heapStart := heapStart
  maps := maps
  grows := grows
  apart := apart
  strays := strays
  counters := counters
  coalesced := by
    intro coalesced
    obtain ⟨ahead, behind⟩ := coalesced.parts
    exact coalesced_iff.mpr ⟨ahead.parts.1, behind, rfl, Or.inr rfl, Or.inl rfl⟩
  aligned := by
    intro even aligned
    obtain ⟨ahead, behind⟩ := aligned_append.mp aligned
    exact aligned_append.mpr ⟨(aligned_append.mp ahead).1, aligned_cons.mpr ⟨even, behind⟩⟩
  carried := fun i inSource _ => carried i inSource
  frame := by
    refine frame.mono (Set.compl_subset_compl.mpr (Set.union_subset_union ?_ ?_))
    · refine (linkCells_mono fun m member => ?_).trans linkCells_records
      obtain ⟨c, listed, rfl⟩ := List.mem_map.mp member
      apply List.mem_map_of_mem
      rcases List.mem_append.mp listed with inFront | inBack <;> simp [*]
    · have whole : (filling a e false).extent = e - a := by
        simp only [filling, Block.extent_eq]
        omega
      rw [whole]
      exact subset_rfl

/-- The state in which a run of blocks from `a` to `e` is about to become one
block: the break, the counters and bytes of the run may have changed. -/
structure Prepared (s : State) (a e : Nat) (statistics : Statistics) (w : State) : Prop where
  heapStart : w.heapStart = s.heapStart
  maps : w.maps = s.maps
  strays : w.strayUnmaps = s.strayUnmaps
  grows : s.brk ≤ w.brk
  apart : MapsApart s → MapsApart w
  statistics : w.globals.statistics = statistics
  frame : Set.EqOn w.bytes s.bytes (cells a (e - a))ᶜ

/-- Nothing has changed yet. -/
theorem Prepared.start (s : State) (a e : Nat) : Prepared s a e s.globals.statistics s :=
  ⟨rfl, rfl, rfl, Nat.le_refl _, id, rfl, fun _ _ => rfl⟩

/-- The counters are updated. -/
theorem Prepared.count {w : State} {statistics : Statistics}
    (prepared : Prepared s a e statistics w) (next : Statistics) :
    Prepared s a e next (withStatistics w next) :=
  ⟨prepared.heapStart, prepared.maps, prepared.strays, prepared.grows, prepared.apart, rfl,
    prepared.frame⟩

/-- The wilderness is set. -/
theorem Prepared.point {w : State} {statistics : Statistics}
    (prepared : Prepared s a e statistics w) (wilderness : Nat) :
    Prepared s a e statistics (withWilderness w wilderness) :=
  ⟨prepared.heapStart, prepared.maps, prepared.strays, prepared.grows, prepared.apart,
    prepared.statistics, prepared.frame⟩

/-- Cells of the run are written. -/
theorem Prepared.write {w : State} {statistics : Statistics} {bytes : Memory} {changed : Set Nat}
    (prepared : Prepared s a e statistics w) (frame : Set.EqOn bytes w.bytes changedᶜ)
    (inside : ∀ x ∈ changed, a ≤ x ∧ x < e) : Prepared s a e statistics (w.withBytes bytes) := by
  refine ⟨prepared.heapStart, prepared.maps, prepared.strays, prepared.grows, prepared.apart,
    prepared.statistics, (frame.mono (Set.compl_subset_compl.mpr fun x here => ?_)).trans
      prepared.frame⟩
  have := inside x here
  simp only [mem_cells]
  omega

/-- The header of the block to be is written. -/
theorem Prepared.head {w : State} {statistics : Statistics}
    (prepared : Prepared s a e statistics w) (room : a + 64 ≤ e) {total : Nat}
    (small : total < 2 ^ 64) :
    Prepared s a e statistics (w.withBytes (headed w.bytes a total)) :=
  prepared.write (headed_fields _ _ _ small).2.2 fun x here => by
    simp only [mem_cells] at here
    omega

/-- Closing the run leaves the block enlarged. -/
theorem Prepared.enlarged {w : State} {statistics : Statistics} {bytes : Memory} {head : Nat}
    {delta : Int} (prepared : Prepared s a e statistics w) (alone : inUse mid = [b])
    (closed : Tiled (relink w bytes head delta) (front ++ filling a e false :: back))
    (room : a + 64 ≤ e)
    (counters : s.globals.statistics = tally (front ++ mid ++ back) s.maps →
      statistics = tally (front ++ filling a e false :: back) s.maps)
    (carried : ∀ i, i < b.size → bytes (a + 32 + i) = s.bytes (b.address + 32 + i))
    (frame : Set.EqOn bytes w.bytes
      (linkCells ((front ++ back).map Block.address) ∪ cells a (e - a))ᶜ) :
    Enlarged s (front ++ mid ++ back) b (relink w bytes head delta)
      (front ++ filling a e false :: back) (filling a e false) := by
  refine .of_filling alone closed prepared.heapStart prepared.maps prepared.grows ?_ prepared.strays
    (fun exact => ?_) carried room (frame.trans (prepared.frame.mono ?_))
  · exact fun before => prepared.apart before
  · simp only [relink, prepared.statistics, prepared.maps]
    exact counters exact
  · exact Set.compl_subset_compl.mpr Set.subset_union_right

/-- The wilderness is no part of what growing achieves. -/
theorem Enlarged.withWilderness (enlarged : Enlarged s old b t new c) (wilderness : Nat) :
    Enlarged s old b (Malloc3.withWilderness t wilderness) new c :=
  ⟨enlarged.tiled.congr rfl, enlarged.used, enlarged.shown, enlarged.heapStart, enlarged.maps,
    enlarged.grows, enlarged.apart, enlarged.strays, enlarged.counters, enlarged.coalesced,
    enlarged.aligned, enlarged.carried, enlarged.frame⟩

/-- Close the prepared run around the block at its front. -/
theorem Prepared.settle {w : State} {statistics : Statistics}
    (prepared : Prepared s a e statistics w) (opened : Opened w front back a e order [])
    (first : a ∈ order) (sized : size w.bytes a = e - a - 64) (flag : isFree w.bytes a = false)
    (alone : inUse mid = [b]) (inside : a + b.size + 64 ≤ e)
    (behind : ∀ m ∈ order, m = a ∨ a + b.size + 16 ≤ m)
    (kept : ∀ i, i < b.size → w.bytes (a + 32 + i) = s.bytes (b.address + 32 + i))
    (counters : s.globals.statistics = tally (front ++ mid ++ back) s.maps →
      statistics = tally (front ++ filling a e false :: back) s.maps) :
    ∃ t, (∀ {β : Type} {rest : Alloc β} {r : β} {u : State}, Returns rest t r u →
        Returns (order.foldr (fun n rest => removeMetadata n >>= fun _ => rest)
          (addMetadata a >>= fun _ => copyFooter a >>= fun _ => rest)) w r u) ∧
      Enlarged s (front ++ mid ++ back) b t (front ++ filling a e false :: back)
        (filling a e false) ∧
      t.globals.blockList.wilderness = w.globals.blockList.wilderness := by
  obtain ⟨bytes, head, delta, run, closed, carried, frame⟩ :=
    opened.settle first sized flag b.size inside behind
  exact ⟨_, run, prepared.enlarged alone closed (by omega) counters
    (fun i short => (carried i short).trans (kept i short)) frame, rfl⟩

/-- Move the payload to the front of the prepared run and close it. -/
theorem Prepared.gather {w : State} {statistics : Statistics} (length : Nat)
    (prepared : Prepared s a e statistics w) (opened : Opened w front back a e order [])
    (first : a ∈ order) (sized : size w.bytes a = e - a - 64) (flag : isFree w.bytes a = false)
    (alone : inUse mid = [b]) (inside : a + length + 64 ≤ e) (whole : b.size ≤ length)
    (spared : ∀ m ∈ order, m = a ∨ a + length + 16 ≤ m)
    (readable : w.Mapped (b.address + 32) length)
    (kept : ∀ i, i < b.size → w.bytes (b.address + 32 + i) = s.bytes (b.address + 32 + i))
    (counters : s.globals.statistics = tally (front ++ mid ++ back) s.maps →
      statistics = tally (front ++ filling a e false :: back) s.maps) :
    ∃ t, (∀ {β : Type} {rest : Alloc β} {r : β} {u : State}, Returns rest t r u →
        Returns (memmove (a + 32) (b.address + 32) length >>= fun _ =>
          order.foldr (fun n rest => removeMetadata n >>= fun _ => rest)
            (addMetadata a >>= fun _ => copyFooter a >>= fun _ => rest)) w r u) ∧
      Enlarged s (front ++ mid ++ back) b t (front ++ filling a e false :: back)
        (filling a e false) ∧
      t.globals.blockList.wilderness = w.globals.blockList.wilderness := by
  obtain ⟨bytes, head, delta, run, closed, carried, frame⟩ :=
    opened.gather first sized flag length inside spared readable
  exact ⟨_, run, prepared.enlarged alone closed (by omega) counters
    (fun i short => (carried i (by omega)).trans (kept i short)) frame, rfl⟩

/-- Outside the heap growing in place changes nothing. -/
theorem Enlarged.outside (enlarged : Enlarged s old b t new c) (sound : Sound s old) {x : Nat}
    (outside : x < s.heapStart ∨ t.brk ≤ x) : t.bytes x = s.bytes x := by
  obtain ⟨rest, _, after⟩ := enlarged.used
  have listed : c ∈ new := (mem_inUse.mp (after.mem_iff.mpr (by simp))).1
  have place := enlarged.tiled.tiles.within listed
  rw [enlarged.heapStart] at place
  apply enlarged.frame
  rintro (inOld | inNew)
  · have := records_within sound.tiled.tiles inOld
    have := enlarged.grows
    simp only [Set.mem_Ico] at *
    omega
  · simp only [mem_cells] at inNew
    omega

/-- Growing in place exchanges the payload for the grown one. -/
theorem Enlarged.exchange (enlarged : Enlarged s old b t new c) (sound : Sound s old) :
    Exchange s.bytes t.bytes (owned old s.maps) (owned new t.maps) [(b.address + 32, b.size)]
      [(c.address + 32, c.size)] := by
  obtain ⟨rest, before, after⟩ := enlarged.used
  have listed : c ∈ new := (mem_inUse.mp (after.mem_iff.mpr (by simp))).1
  have apart := enlarged.apart sound.mappings.apart
  refine ⟨rest.map (fun b => (b.address + 32, b.size)) ++
    s.maps.map fun region => (region.1 + 32, region.2 - 32), ?_, ?_, ?_⟩
  · exact (before.map _).append_right _
  · unfold owned
    rw [enlarged.maps]
    exact (after.map _).append_right _
  rintro x ⟨o, member, low, high⟩
  rcases List.mem_append.mp member with inHeap | inMaps
  · obtain ⟨r, inRest, rfl⟩ := List.mem_map.mp inHeap
    simp only at low high
    have inOld := (mem_inUse.mp (before.mem_iff.mpr (List.mem_cons_of_mem _ inRest))).1
    have inNew := (mem_inUse.mp (after.mem_iff.mpr (List.mem_cons_of_mem _ inRest))).1
    have differs : r ≠ c := by
      have distinct := (after.map Block.address).nodup_iff.mp
        ((enlarged.tiled.tiles.nodup Block.extent_pos).sublist ((List.filter_sublist).map _))
      rintro rfl
      exact (List.nodup_cons.mp distinct).1 (List.mem_map_of_mem inRest)
    apply enlarged.frame
    rintro (inOldRecords | inGrown)
    · exact payload_clear sound.tiled.tiles inOld low high inOldRecords
    · have := enlarged.tiled.tiles.disjoint inNew listed differs
      rw [r.extent_eq] at this
      simp only [mem_cells] at inGrown
      omega
  · obtain ⟨region, known, rfl⟩ := List.mem_map.mp inMaps
    simp only at low high
    have clear := apart region (enlarged.maps ▸ known)
    rw [enlarged.heapStart] at clear
    exact enlarged.outside sound (by omega)

/-- Growing in place is a transfer of the grown payload. -/
theorem Enlarged.transfer (enlarged : Enlarged s old b t new c) (sound : Sound s old)
    (wilderness : t.globals.blockList.wilderness = lastAddress new) :
    Transfer s old t new [(b.address + 32, b.size)] [(c.address + 32, c.size)] := by
  have apart := enlarged.apart sound.mappings.apart
  refine ⟨⟨enlarged.tiled, wilderness, enlarged.shown sound.shown, apart, fun region member => ?_,
    enlarged.maps ▸ sound.mappings.separate⟩, enlarged.exchange sound⟩
  have clear := apart region member
  rw [enlarged.maps] at member
  have length := sound.mappings.length member
  rw [enlarged.heapStart] at clear
  have same : Set.EqOn t.bytes s.bytes (cells region.1 32)ᶜᶜ := by
    rw [compl_compl]
    rintro x ⟨low, high⟩
    exact enlarged.outside sound (by omega)
  exact (sound.mappings.holds region member).frame same fun x low high out => out ⟨low, high⟩

end OperatingSystems.Malloc3
