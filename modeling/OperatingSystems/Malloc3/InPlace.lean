import OperatingSystems.Malloc3.Growth

/-!
# Growing into the neighbours

The branches of `tryMergeRealloc` that need no more heap. Each counts, states
the new size in the header of the run, moves the payload if the run starts below
it, and closes the run as one block.
-/

namespace OperatingSystems.Malloc3

open Bytes Process MallocMetadata Tiling

variable {s t u v : State} {pre post front mid back old new blocks : List Block} {b c n p : Block}
  {a e : Nat} {statistics : Statistics}

/-- Case b, once the block before it is to be absorbed. The grown block may have
been extended to `length` before. -/
theorem absorbPrevious_returns {length : Nat} (prepared : Prepared s p.address e statistics u)
    (opened : Opened u pre post p.address e [b.address, p.address] [])
    (beside : p.address + p.size + 64 = b.address) (finish : b.address + length + 64 = e)
    (headerPrev : size u.bytes p.address = p.size)
    (footerPrev : size u.bytes (b.address - 32) = p.size)
    (headerCurrent : size u.bytes b.address = length) (spared : length ≤ p.size + 48)
    (alone : inUse mid = [b]) (whole : b.size ≤ length)
    (kept : ∀ i, i < b.size → u.bytes (b.address + 32 + i) = s.bytes (b.address + 32 + i))
    (counters : s.globals.statistics = tally (pre ++ mid ++ post) s.maps →
      statistics.update (-1) (-1) (2 * 32) (-p.size) (-(2 * 32)) =
        tally (pre ++ filling p.address e false :: post) s.maps) :
    ∃ t, Returns (absorbPrevious b.address (b.address - 32)) u (p.address + 32) t ∧
      Enlarged s (pre ++ mid ++ post) b t (pre ++ filling p.address e false :: post)
        (filling p.address e false) ∧
      t.globals.blockList.wilderness = u.globals.blockList.wilderness := by
  obtain ⟨total, isTotal⟩ : ∃ total, total = p.size + (length + 2 * 32) := ⟨_, rfl⟩
  have small := opened.small
  have top := opened.above.le
  have back : b.address - 32 - p.size - 32 = p.address := by omega
  obtain ⟨v, isCounted⟩ : ∃ v, v = withStatistics u
      (statistics.update (-1) (-1) (2 * 32) (-p.size) (-(2 * 32))) := ⟨_, rfl⟩
  have sameBytes : v.bytes = u.bytes := by rw [isCounted]; rfl
  have opened' : Opened v pre post p.address e [b.address, p.address] [] := by
    rw [isCounted]
    exact opened.congr rfl
  have counted : Prepared s p.address e _ v := isCounted ▸ prepared.count _
  have counts : Returns (updateStatistics (-1) (-1) (2 * 32) (-p.size) (-(2 * 32))) u () v := by
    rw [isCounted, ← prepared.statistics]
    exact updateStatistics_returns
  obtain ⟨sized, flag, written⟩ := headed_fields v.bytes p.address total (by omega)
  obtain ⟨w, isHeaded⟩ : ∃ w, w = v.withBytes (headed v.bytes p.address total) := ⟨_, rfl⟩
  have ready : Opened w pre post p.address e [b.address, p.address] [] := by
    rw [isHeaded]
    exact opened'.head (by simp) (by omega) (by omega)
  obtain ⟨t, run, enlarged, last⟩ := Prepared.gather length
    (isHeaded ▸ counted.head (by omega) (by omega)) ready (by simp)
    (by rw [isHeaded]; exact sized.trans (by omega)) (by rw [isHeaded]; exact flag) alone (by omega)
    whole (fun m member => by
      simp only [List.mem_cons, List.not_mem_nil, or_false] at member
      omega)
    (ready.mapped (by omega) (by omega)) (fun i short => by
      rw [isHeaded]
      refine (written ?_).trans ((congrFun sameBytes _).trans (kept i short))
      simp only [Set.mem_compl_iff, mem_cells]
      omega) counters
  refine ⟨t, ?_, enlarged, last.trans (by rw [isHeaded, isCounted]; rfl)⟩
  unfold absorbPrevious
  apply Returns.bind ((readSize_returns (opened.mapped (by omega) (by omega))).to footerPrev)
  simp only [SOM, back]
  have mappedPrev : u.Mapped p.address 32 := opened.mapped (Nat.le_refl _) (by omega)
  have prevNow : v.Mapped p.address 32 := opened'.mapped (Nat.le_refl _) (by omega)
  refine Returns.bind ((readSize_returns mappedPrev).to headerPrev) (Returns.bind counts ?_)
  have reads : Returns (readSize b.address) v length v :=
    (readSize_returns (opened'.mapped (by omega) (by omega))).to (sameBytes ▸ headerCurrent)
  apply Returns.bind reads
  rw [← isTotal]
  refine Returns.bind (writeSize_returns prevNow) (Returns.bind (t := w) (x := ()) ?_
    (run Returns.pure))
  rw [isHeaded]
  exact writeFree_returns (s := v.withBytes _) prevNow

/-- Case b in a heap that needs no extension. -/
theorem absorbPrevious_grows (tiled : Tiled s (pre ++ [p, b] ++ post)) (live : b.free = false)
    (prevFree : p.free = true) (spared : b.size ≤ p.size + 48) :
    ∃ t, Returns (absorbPrevious b.address (b.address - 32)) s (p.address + 32) t ∧
      Enlarged s (pre ++ [p, b] ++ post) b t
        (pre ++ filling p.address (b.address + b.size + 64) false :: post)
        (filling p.address (b.address + b.size + 64) false) ∧
      t.globals.blockList.wilderness = s.globals.blockList.wilderness := by
  have beside : p.address + p.size + 64 = b.address :=
    (show Tiled s (pre ++ [p] ++ b :: post) by simpa using tiled).previous
  have middle : Tile p.address [p, b] (b.address + b.size + 64) := by
    simp [Block.extent_eq]
    omega
  obtain ⟨below, above⟩ := tiled.span middle (by simp)
  have storedPrev := tiled.stored p (by simp)
  have storedCurrent := tiled.stored b (by simp)
  have footer : b.address - 32 = p.address + p.size + 32 := by omega
  refine absorbPrevious_returns (Prepared.start s _ _)
    ((tiled.opened below middle above).perm (List.Perm.swap _ _ _)) beside rfl storedPrev.size
    (footer ▸ storedPrev.footSize) storedCurrent.size spared (show inUse [p, b] = [b] by simp [live, prevFree])
    (Nat.le_refl _) (fun _ _ => rfl) fun exact => ?_
  rw [exact]
  refine tally_update ?_ ?_ ?_ ?_ ?_ <;> simp [live, prevFree, filling] <;> omega

/-- The common end of cases e and f with both neighbours free: the header of the
first block already states the size of all. -/
theorem joinThree_returns (prepared : Prepared s p.address e statistics u)
    (opened : Opened u pre post p.address e [p.address, b.address, n.address] [])
    (beside : p.address + p.size + 64 = b.address) (next : n.address = b.address + b.size + 64)
    (room : n.address + 64 ≤ e) (sized : size u.bytes p.address = e - p.address - 64)
    (flag : isFree u.bytes p.address = false) (headerCurrent : size u.bytes b.address = b.size)
    (spared : b.size ≤ p.size + 48) (alone : inUse mid = [b])
    (kept : ∀ i, i < b.size → u.bytes (b.address + 32 + i) = s.bytes (b.address + 32 + i))
    (counters : s.globals.statistics = tally (pre ++ mid ++ post) s.maps →
      statistics = tally (pre ++ filling p.address e false :: post) s.maps) :
    ∃ t, Returns (joinThree b.address p.address n.address) u (p.address + 32) t ∧
      Enlarged s (pre ++ mid ++ post) b t (pre ++ filling p.address e false :: post)
        (filling p.address e false) ∧
      t.globals.blockList.wilderness = u.globals.blockList.wilderness := by
  obtain ⟨t, run, enlarged, last⟩ := prepared.gather b.size opened (by simp) sized flag
    alone (by omega) (Nat.le_refl _)
    (fun m member => by
      simp only [List.mem_cons, List.not_mem_nil, or_false] at member
      omega)
    (opened.mapped (by omega) (by omega)) kept counters
  refine ⟨t, ?_, enlarged, last⟩
  unfold joinThree
  apply Returns.bind ((readSize_returns (opened.mapped (by omega) (by omega))).to headerCurrent)
  exact run Returns.pure

/-- Case e: absorb both neighbours. -/
theorem absorbBoth_grows (tiled : Tiled s (pre ++ [p, b, n] ++ post)) (live : b.free = false)
    (prevFree : p.free = true) (nextFree : n.free = true) (spared : b.size ≤ p.size + 48) :
    ∃ t, Returns (absorbBoth b.address (b.address - 32) n.address) s (p.address + 32) t ∧
      Enlarged s (pre ++ [p, b, n] ++ post) b t
        (pre ++ filling p.address (n.address + n.size + 64) false :: post)
        (filling p.address (n.address + n.size + 64) false) ∧
      t.globals.blockList.wilderness = s.globals.blockList.wilderness := by
  have beside : p.address + p.size + 64 = b.address :=
    (show Tiled s (pre ++ [p] ++ b :: n :: post) by simpa using tiled).previous
  have next : n.address = b.address + b.size + 64 :=
    (show Tiled s (pre ++ [p] ++ b :: n :: post) by simpa using tiled).next
  have middle : Tile p.address [p, b, n] (n.address + n.size + 64) := by
    simp [Block.extent_eq]
    omega
  obtain ⟨below, above⟩ := tiled.span middle (by simp)
  have top := above.le
  have small := tiled.small
  have storedPrev := tiled.stored p (by simp)
  have storedCurrent := tiled.stored b (by simp)
  have readsFooter : Returns (readSize (b.address - 32)) s p.size s :=
    (show Tiled s (pre ++ [p] ++ b :: n :: post) by simpa using tiled).reads_previous
  have back : b.address - 32 - p.size - 32 = p.address := by omega
  obtain ⟨total, isTotal⟩ : ∃ total, total = p.size + (b.size + n.size + 4 * 32) := ⟨_, rfl⟩
  obtain ⟨u, isCounted⟩ : ∃ u, u = withStatistics s (s.globals.statistics.update (-2) (-2) (4 * 32)
      (-(p.size + n.size)) (-(4 * 32))) := ⟨_, rfl⟩
  have sameBytes : u.bytes = s.bytes := by rw [isCounted]; rfl
  have opened : Opened u pre post p.address (n.address + n.size + 64)
      [p.address, b.address, n.address] [] := by
    rw [isCounted]
    exact (tiled.opened below middle above).congr rfl
  have counted : Prepared s p.address (n.address + n.size + 64) _ u :=
    isCounted ▸ (Prepared.start s _ _).count _
  obtain ⟨sized, flag, written⟩ := headed_fields u.bytes p.address total (by omega)
  obtain ⟨v, isHeaded⟩ : ∃ v, v = u.withBytes (headed u.bytes p.address total) := ⟨_, rfl⟩
  have ready : Opened v pre post p.address (n.address + n.size + 64)
      [p.address, b.address, n.address] [] := by
    rw [isHeaded]
    exact opened.head (by simp) (by omega) (by omega)
  have apart : Set.EqOn v.bytes s.bytes (cells p.address 9)ᶜ := by
    rw [isHeaded, ← sameBytes]
    exact written
  obtain ⟨t, run, enlarged, last⟩ := joinThree_returns
    (isHeaded ▸ counted.head (by omega) (by omega)) ready beside next (by omega)
    (by rw [isHeaded]; exact sized.trans (by omega)) (by rw [isHeaded]; exact flag)
    ((size_frame apart fun x low high => by simp only [mem_cells]; omega).trans storedCurrent.size)
    spared (show inUse [p, b, n] = [b] by simp [live, prevFree, nextFree])
    (fun i short => apart (by simp only [Set.mem_compl_iff, mem_cells]; omega)) fun exact => by
      rw [exact]
      refine tally_update ?_ ?_ ?_ ?_ ?_ <;> simp [live, prevFree, nextFree, filling] <;> omega
  refine ⟨t, ?_, enlarged, last.trans (by rw [isHeaded, isCounted]; rfl)⟩
  unfold absorbBoth
  apply Returns.bind readsFooter
  simp only [SOM, back]
  apply Returns.bind (tiled.reads_size (b := n) (by simp))
  apply Returns.bind (t := u) (x := ()) (by rw [isCounted]; exact updateStatistics_returns)
  have prevHere : u.Mapped p.address 32 := opened.mapped (Nat.le_refl _) (by omega)
  have readsPrev : Returns (readSize p.address) u p.size u :=
    (readSize_returns prevHere).to (sameBytes ▸ storedPrev.size)
  have readsCurrent : Returns (readSize b.address) u b.size u :=
    (readSize_returns (opened.mapped (by omega) (by omega))).to (sameBytes ▸ storedCurrent.size)
  refine Returns.bind readsPrev (Returns.bind readsCurrent ?_)
  rw [← isTotal]
  refine Returns.bind (writeSize_returns prevHere) (Returns.bind (t := v) (x := ()) ?_ run)
  rw [isHeaded]
  exact writeFree_returns (s := u.withBytes _) prevHere

/-- Case d: absorb the block behind it. -/
theorem absorbNext_grows (tiled : Tiled s (pre ++ [b, n] ++ post)) (live : b.free = false)
    (nextFree : n.free = true) :
    ∃ t, Returns (absorbNext b.address n.address) s (b.address + 32) t ∧
      Enlarged s (pre ++ [b, n] ++ post) b t
        (pre ++ filling b.address (n.address + n.size + 64) false :: post)
        (filling b.address (n.address + n.size + 64) false) ∧
      t.globals.blockList.wilderness = s.globals.blockList.wilderness := by
  have next : n.address = b.address + b.size + 64 :=
    (show Tiled s (pre ++ b :: n :: post) by simpa using tiled).next
  have middle : Tile b.address [b, n] (n.address + n.size + 64) := by
    simp [Block.extent_eq]
    omega
  obtain ⟨below, above⟩ := tiled.span middle (by simp)
  have top := above.le
  have small := tiled.small
  have storedCurrent := tiled.stored b (by simp)
  obtain ⟨total, isTotal⟩ : ∃ total, total = b.size + (n.size + 2 * 32) := ⟨_, rfl⟩
  obtain ⟨u, isCounted⟩ : ∃ u, u = withStatistics s (s.globals.statistics.update (-1) (-1) (2 * 32)
      (-n.size) (-(2 * 32))) := ⟨_, rfl⟩
  have sameBytes : u.bytes = s.bytes := by rw [isCounted]; rfl
  have opened : Opened u pre post b.address (n.address + n.size + 64) [b.address, n.address] [] := by
    rw [isCounted]
    exact (tiled.opened below middle above).congr rfl
  have counted : Prepared s b.address (n.address + n.size + 64) _ u :=
    isCounted ▸ (Prepared.start s _ _).count _
  obtain ⟨sized, flag, written⟩ := headed_fields u.bytes b.address total (by omega)
  obtain ⟨v, isHeaded⟩ : ∃ v, v = u.withBytes (headed u.bytes b.address total) := ⟨_, rfl⟩
  have ready : Opened v pre post b.address (n.address + n.size + 64) [b.address, n.address] [] := by
    rw [isHeaded]
    exact opened.head (by simp) (by omega) (by omega)
  obtain ⟨t, run, enlarged, last⟩ := Prepared.settle
    (isHeaded ▸ counted.head (by omega) (by omega)) ready (by simp)
    (by rw [isHeaded]; exact sized.trans (by omega)) (by rw [isHeaded]; exact flag)
    (show inUse [b, n] = [b] by simp [live, nextFree]) (by omega)
    (fun m member => by
      simp only [List.mem_cons, List.not_mem_nil, or_false] at member
      omega)
    (fun i short => by
      rw [isHeaded, ← sameBytes]
      apply written
      simp only [Set.mem_compl_iff, mem_cells]
      omega) fun exact => by
      rw [exact]
      refine tally_update ?_ ?_ ?_ ?_ ?_ <;> simp [live, nextFree, filling] <;> omega
  refine ⟨t, ?_, enlarged, last.trans (by rw [isHeaded, isCounted]; rfl)⟩
  have currentHere : u.Mapped b.address 32 := opened.mapped (Nat.le_refl _) (by omega)
  unfold absorbNext
  apply Returns.bind (tiled.reads_size (b := n) (by simp))
  apply Returns.bind (t := u) (x := ()) (by rw [isCounted]; exact updateStatistics_returns)
  apply Returns.bind ((readSize_returns currentHere).to (sameBytes ▸ storedCurrent.size))
  simp only [SOM]
  rw [← isTotal]
  refine Returns.bind (writeSize_returns currentHere) (Returns.bind (t := v) (x := ()) ?_
    (run Returns.pure))
  rw [isHeaded]
  exact writeFree_returns (s := u.withBytes _) currentHere

end OperatingSystems.Malloc3
