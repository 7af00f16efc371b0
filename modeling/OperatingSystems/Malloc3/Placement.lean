import OperatingSystems.Malloc3.RoundTrip

/-!
# Where a request is placed, and what is given back

A request below the threshold goes to the best fit among the free blocks, and
then the system is not asked for anything. Only when none is large enough does
the heap grow, by exactly what is missing. Neighbouring free blocks are one, so
there is at most one free block more than there are blocks in use, and a client
that holds nothing has left one free block behind, from the first break to the
present one.
-/

namespace OperatingSystems.Malloc3

open Bytes Process MallocMetadata Tiling Payloads Runs

/-- No free block is large enough. -/
def NoneFits (blocks : List Block) (n : Nat) : Prop := ∀ b ∈ blocks, b.free = true → b.size < n

/-- Where a request for a block of `n` bytes is placed: the pointer it gets and the
state it leaves. -/
inductive Placed (s : State) (blocks : List Block) (n : Nat) : Nat → State → Prop
  | reused {b : Block} {t : State} (best : BestFit blocks n b) (brk : t.brk = s.brk)
    (replies : t.replies = s.replies) (maps : t.maps = s.maps) : Placed s blocks n (b.address + 32) t
  | extended {pre : List Block} {b : Block} {t : State} (last : blocks = pre ++ [b]) (free : b.free = true)
    (none : NoneFits blocks n) (grants : s.Grants (n - b.size)) (brk : t.brk = s.brk + (n - b.size))
    (maps : t.maps = s.maps) : Placed s blocks n (b.address + 32) t
  | appended {t : State} (last : ∀ pre b, blocks = pre ++ [b] → b.free = false)
    (none : NoneFits blocks n) (grants : s.Grants (n + 64)) (brk : t.brk = s.brk + (n + 64))
    (maps : t.maps = s.maps) : Placed s blocks n (s.brk + 32) t
  | refused (none : NoneFits blocks n) (denied : ¬s.Grants (shortage blocks n)) :
    Placed s blocks n 0 (answered s)

variable {s t : State} {pre post blocks : List Block} {b : Block} {n p : Nat} {sys : System}

/-- A block that is split is split without the system. -/
theorem splitBlock_quiet (tiled : Tiled s (pre ++ b :: post)) (room : n + 192 ≤ b.size)
    (small : b.size - n - 64 < MMAP_THRESHOLD) (shown : Shown pre)
    (run : Returns (splitBlock n b.address) s () t) :
    t.brk = s.brk ∧ t.replies = s.replies ∧ t.maps = s.maps := by
  obtain ⟨_, _, _, u, _, _, isCounted, merged, same, _⟩ := splitBlock_frees tiled room small shown
  obtain ⟨_, rfl⟩ := run.unique same
  rw [merged.rest, isCounted]
  exact ⟨rfl, rfl, rfl⟩

/-- A free block that is large enough is handed out, whole or split, without the
system. -/
theorem reuseBlock_places (tiled : Tiled s (pre ++ b :: post)) (best : BestFit (pre ++ b :: post) n b)
    (request : n ≤ 100000007) (cut : SmallCut b.size n) (shown : Shown pre) :
    ∃ p t, Returns (reuseBlock n b.address) s p t ∧ Placed s (pre ++ b :: post) n p t := by
  have bound := tiled.within (b := b) (by simp)
  have top := tiled.small
  by_cases room : n + 192 ≤ b.size
  · have upper := cut ((splits_iff (by omega) request).mpr room)
    rw [upperSize_eq (by omega) (by omega)] at upper
    obtain ⟨t, _, split, _⟩ := splitBlock_returns tiled room upper shown
    obtain ⟨brk, replies, maps⟩ := splitBlock_quiet tiled room upper shown split
    exact ⟨_, t, reuseBlock_split tiled request room split, .reused best brk replies maps⟩
  · exact ⟨_, _, reuseBlock_whole tiled request room, .reused best rfl rfl rfl⟩

/-- The heap grows by what is missing, or the request is refused. -/
theorem growHeap_places (tiled : Tiled s blocks)
    (wilderness : s.globals.blockList.wilderness = lastAddress blocks) (request : n < 2 ^ 62)
    (none : NoneFits blocks n) : ∃ p t, Returns (growHeap n) s p t ∧ Placed s blocks n p t := by
  have append (notFree : Returns wildernessFree s false s)
      (last : ∀ pre b, blocks = pre ++ [b] → b.free = false) (missing : shortage blocks n = n + 64) :
      ∃ p t, Returns (growHeap n) s p t ∧ Placed s blocks n p t := by
    rcases appendBlock_returns tiled request with ⟨denied, refused⟩ | ⟨allowed, t, run, evolves⟩
    · exact ⟨_, _, Returns.bind notFree (Returns.ifNeg (by simp) refused), .refused none (missing ▸ denied)⟩
    · obtain ⟨_, _, ends⟩ := evolves.tiled.place
      have isEnd : s.brk + n + 64 = t.brk := ends
      exact ⟨_, t, Returns.bind notFree (Returns.ifNeg (by simp) run),
        .appended last none allowed (by omega) evolves.maps⟩
  rcases List.eq_nil_or_concat blocks with rfl | ⟨pre, b, rfl⟩
  · refine append (Returns.bind getWilderness_returns ?_) (fun pre b same => by simp at same) shortage_nil
    rw [wilderness]
    exact Returns.ifPos rfl Returns.pure
  · rw [List.concat_eq_append] at *
    have isLast : s.globals.blockList.wilderness = b.address := by
      rw [wilderness, lastAddress_append_cons, lastAddress_singleton]
    have header := tiled.header_mapped (b := b) (by simp)
    have stored := tiled.stored b (by simp)
    have proper : b.address ≠ 0 := by
      have := tiled.tiles.within (x := b) (by simp)
      have := tiled.proper
      omega
    have reads : Returns wildernessFree s b.free s := by
      apply Returns.bind getWilderness_returns
      rw [isLast]
      exact Returns.ifNeg proper ((readFree_returns header.1).to stored.free)
    cases free : b.free with
    | false =>
      refine append (free ▸ reads) (fun pre' c same => ?_) (by simp [free])
      obtain ⟨_, both⟩ := List.append_inj' same rfl
      exact (List.cons.inj both).1 ▸ free
    | true =>
      rw [free] at reads
      have missing : shortage (pre ++ [b]) n = n - b.size := by simp [free]
      obtain ⟨_, _, before⟩ := tiled.place
      have isEnd : b.address + b.size + 64 = s.brk := before
      have short := none b (by simp) free
      rcases growWilderness_returns tiled free short (by omega) isLast with
        ⟨denied, refused⟩ | ⟨allowed, t, run, evolves⟩
      · exact ⟨_, _, Returns.bind reads (Returns.ifPos rfl (Returns.bind (getWilderness_returns.to isLast) refused)),
          .refused none (missing ▸ denied)⟩
      · obtain ⟨_, _, ends⟩ := evolves.tiled.place
        have isEnd' : b.address + n + 64 = t.brk := ends
        exact ⟨_, t, Returns.bind reads (Returns.ifPos rfl (Returns.bind (getWilderness_returns.to isLast) run)),
          .extended rfl free none allowed (by omega) evolves.maps⟩

/-- Where `smalloc` places a request below the threshold. -/
theorem smalloc_places (sound : Sound s blocks) (positive : 0 < n) (request : n ≤ 100000000)
    (small : roundUp n < MMAP_THRESHOLD) (guard : SmallRequest s n) :
    ∃ p t, Returns (smalloc n) s p t ∧ Placed s blocks (roundUp n) p t := by
  have tiled := sound.tiled
  obtain ⟨larger, within, even⟩ := roundUp_le (n := n)
  have begin {p : Nat} {t : State} (run : Returns (do
        let address ← searchFreeBlock (roundUp n)
        if address ≠ 0 then reuseBlock (roundUp n) address else growHeap (roundUp n)) s p t) :
      Returns (smalloc n) s p t :=
    Returns.ifNeg (by omega) (Returns.ifPos small run)
  rcases searchFreeBlock_cases tiled (roundUp n) with ⟨search, none⟩ | ⟨b, best, search⟩
  · obtain ⟨p, t, run, placed⟩ := growHeap_places tiled sound.wilderness (by omega) none
    exact ⟨p, t, begin (Returns.bind search (Returns.ifNeg (by simp) run)), placed⟩
  · have proper : b.address ≠ 0 := by
      have := tiled.tiles.within best.member
      have := tiled.proper
      omega
    have cut := tiled.smallRequest.mp guard positive request small b best
    obtain ⟨pre, post, rfl⟩ := List.append_of_mem best.member
    obtain ⟨p, t, run, placed⟩ := reuseBlock_places tiled best (by omega) cut
      fun c member => sound.shown c (by simp [member])
    exact ⟨p, t, begin (Returns.bind search (Returns.ifPos proper run)), placed⟩

/-- In every state of such a run, a request below the threshold gets the best fit
without the system being asked, or the heap grows by exactly what is missing, or the
request is refused because the system refused that. -/
theorem runs_place (launch : Launch) (aligned : launch.brk % 8 = 0) (calls : List Call) (n : Nat)
    (positive : 0 < n) (request : n ≤ 100000000) (small : roundUp n < MMAP_THRESHOLD)
    (modest : During launch Modest (calls ++ [.smalloc n])) :
    ∃ sys blocks p next, run launch calls = .ok sys ∧ WellFormed sys.state blocks ∧
      Placed sys.state blocks (roundUp n) p next.state ∧ perform (.smalloc n) sys = .ok next ∧
      next.live = if p = 0 then sys.live else (p, n) :: sys.live := by
  obtain ⟨sys, reached, blocks, held, exact⟩ := modest_run launch aligned modest.front
  obtain ⟨_, _, guard⟩ := ((obeys_append reached).mp modest).2.1
  obtain ⟨p, t, served, placed⟩ := smalloc_places held.toSound positive request small guard
  exact ⟨sys, blocks, p, _, reached, held.well_formed exact, placed, perform_returns served, rfl⟩

/-- The blocks from which a client has taken nothing. -/
def vacant (blocks : List Block) : List Block := blocks.filter Block.free

/-- In a coalesced heap the free blocks are at most one more than those in use. -/
theorem Coalesced.vacant_le (coalesced : Coalesced blocks) :
    (vacant blocks).length ≤ (inUse blocks).length + 1 := by
  have most := (gaps_le Block.free coalesced.apart).1
  simpa only [vacant, inUse, ← List.countP_eq_length_filter] using most

/-- The payloads of the heap are among those of the client. -/
theorem Held.used_le (held : Held sys blocks) :
    (inUse blocks).length + sys.state.maps.length = sys.live.length := by
  have same := held.backed.pointers.length_eq
  simp only [owned, List.length_map, List.length_append] at same
  exact same.symm

/-- In every state of such a run the heap is cut up into at most twice as many blocks as
the client holds, and one more; when the client holds nothing, there is no mapping, and
the heap is empty or one free block. -/
theorem runs_reclaim (launch : Launch) (aligned : launch.brk % 8 = 0) (calls : List Call)
    (modest : During launch Modest calls) :
    ∃ sys blocks, run launch calls = .ok sys ∧ WellFormed sys.state blocks ∧
      blocks.length ≤ 2 * sys.live.length + 1 ∧
      (sys.live = [] → sys.state.maps = [] ∧
        (blocks = [] ∧ sys.state.brk = sys.state.heapStart ∨
          blocks = [⟨sys.state.heapStart, sys.state.brk - sys.state.heapStart - 64, true, true⟩])) := by
  obtain ⟨sys, reached, blocks, held, exact⟩ := modest_run launch aligned modest
  have few := exact.coalesced.vacant_le
  have used := held.used_le
  have both : blocks.length = (vacant blocks).length + (inUse blocks).length := by
    simpa only [vacant, inUse, ← List.countP_eq_length_filter, Bool.not_eq_true, Bool.decide_eq_false] using
      List.length_eq_countP_add_countP Block.free
  refine ⟨sys, blocks, reached, held.well_formed exact, by omega, fun none => ?_⟩
  rw [none, List.length_nil] at used
  have idle : inUse blocks = [] := List.eq_nil_of_length_eq_zero (by omega)
  refine ⟨List.eq_nil_of_length_eq_zero (by omega), ?_⟩
  have tiles := held.tiled.tiles
  cases blocks with
  | nil => exact Or.inl ⟨rfl, Eq.symm tiles⟩
  | cons b rest =>
    right
    obtain rfl : rest = [] := by
      apply List.eq_nil_of_length_eq_zero
      rw [List.length_cons] at both
      omega
    have free : b.free = true := by
      by_contra live
      have member : b ∈ inUse [b] := mem_inUse.mpr ⟨by simp, by simpa using live⟩
      rw [idle] at member
      exact List.not_mem_nil member
    have agree := exact.coalesced.agree b (by simp)
    obtain ⟨starts, ends⟩ := tiles
    have ends : sys.state.heapStart + b.extent = sys.state.brk := ends
    rw [b.extent_eq] at ends
    obtain ⟨address, size, _, _⟩ := b
    simp only at starts ends free agree
    subst starts free agree
    congr
    omega

/-- A free block of 1000 bytes serves a request for 100. -/
theorem runs_place_sample : ∃ sys blocks p next,
    run (pageLaunch [.grant 0 (fun _ => 1), .grant 0 (fun _ => 2)])
      [.smalloc 1000, .smalloc 20, .sfree 4128] = .ok sys ∧ WellFormed sys.state blocks ∧
    Placed sys.state blocks (roundUp 100) p next.state ∧ perform (.smalloc 100) sys = .ok next ∧
    next.live = if p = 0 then sys.live else (p, 100) :: sys.live :=
  runs_place _ (by decide) [.smalloc 1000, .smalloc 20, .sfree 4128] 100 (by decide) (by decide) (by decide)
    (by decide +kernel)

/-- Two blocks and a mapping, all of them given back. -/
theorem runs_reclaim_sample : ∃ sys blocks,
    run (pageLaunch [.grant 0 (fun _ => 1), .grant 0 (fun _ => 2), .grant 8192 (fun _ => 0)])
      [.smalloc 1000, .smalloc 20, .smalloc 200000, .sfree 4128, .sfree 8224, .sfree 5192] = .ok sys ∧
    WellFormed sys.state blocks ∧ blocks.length ≤ 2 * sys.live.length + 1 ∧
    (sys.live = [] → sys.state.maps = [] ∧
      (blocks = [] ∧ sys.state.brk = sys.state.heapStart ∨
        blocks = [⟨sys.state.heapStart, sys.state.brk - sys.state.heapStart - 64, true, true⟩])) :=
  runs_reclaim _ (by decide) _ (by decide +kernel)

end OperatingSystems.Malloc3
