import OperatingSystems.Malloc3.SafeRuns

/-!
# Mappings stay apart from the heap

A call on a mapping stays within it when the process does the same with nothing
else accessible. Freeing a mapping always does, and a resize does as long as it
cuts nothing off and finds the memory it asks for. A cut puts the header of the
mapping on the block list, and a growing resize without memory copies to null.
-/

namespace OperatingSystems.Malloc3

open Bytes Process MallocMetadata Tiling Payloads Runs

variable {sys : System} {blocks : List Block} {p q n : Nat} {s t : State}
  {region : Nat × Nat} {α : Type}

/-- The process with nothing accessible but these ranges. -/
def confined (s : State) (ranges : List (Nat × Nat)) : State :=
  { s with heapStart := s.brk, maps := ranges }

/-- The program returns the same and changes the same with nothing accessible but
these ranges. -/
def Within (program : Alloc α) (s : State) (ranges : List (Nat × Nat)) : Prop :=
  ∃ x t u, Returns program s x t ∧ Returns program (confined s ranges) x u ∧ u.bytes = t.bytes ∧
    u.globals = t.globals

/-- What follows the request when `srealloc` moves a mapping: copy the payload and
give the mapping back. -/
def handOver (oldp newp : Nat) : Alloc Nat := do
  let blockSize ← readSize (oldp - SOM)
  memmove newp oldp blockSize
  sfree oldp
  pure newp

theorem remap_eq (oldp n : Nat) :
    remap oldp n = (do let newp ← smalloc n; handOver oldp newp) := rfl

/-- No listed header shares a cell with a mapping, and every mapping lies outside
the heap and the others, with the size it was made with in its header. -/
structure Separated (sys : System) (blocks : List Block) : Prop where
  isolated : Isolated sys blocks
  mappings : Mappings sys.state
  unlisted : ∃ nodes, Linked sys.state nodes ∧ nodes.Perm (blocks.map Block.address) ∧
    ∀ node ∈ nodes, ∀ region ∈ sys.state.maps,
      node + 32 ≤ region.1 ∨ region.1 + region.2 ≤ node

/-- A resize of a mapping stays within the mapping, or within the mapping and the
payload it asked for. -/
def ResizesApart (s : State) (region : Nat × Nat) (n : Nat) : Prop :=
  if region.2 - 32 < n ∧ n ≤ 100000000 then
    ∃ q t, Returns (smalloc n) s q t ∧
      srealloc (region.1 + 32) n s = handOver (region.1 + 32) q t ∧
      Within (handOver (region.1 + 32) q) t [region, (q, region.2 - 32)]
  else Within (srealloc (region.1 + 32) n) s [region]

/-- A resize of a mapping finds the memory it asks for, or leaves the mapping
whole. -/
def ResizeFits (s : State) (blocks : List Block) (region : Nat × Nat) (n : Nat) : Prop :=
  if region.2 - 32 < n ∧ n ≤ 100000000 then Satisfiable s blocks n
  else 0 < n → n ≤ 100000000 → ¬splits (region.2 - 32) n

/-- In a sound state the mappings are separated from the heap. -/
theorem Held.separated (held : Held sys blocks) : Separated sys blocks where
  isolated := held.isolated
  mappings := held.mappings
  unlisted := by
    obtain ⟨nodes, perm, linked, _⟩ := held.tiled.listed
    refine ⟨nodes, linked, perm, fun node member region listed => ?_⟩
    obtain ⟨b, known, rfl⟩ := List.mem_map.mp (perm.mem_iff.mp member)
    have := held.toSound.within known
    have := held.mappings.apart region listed
    omega

/-- The header of a mapping, in any process that may access it. -/
theorem HoldsBlock.reads (holds : HoldsBlock s.bytes region) (member : region ∈ s.maps) :
    Returns (readSize (region.1 + 32 - SOM)) s (region.2 - 32) s := by
  have sized := holds.sized
  simp only [SOM, Nat.add_sub_cancel]
  refine (readSize_returns (Or.inr (Or.inr ⟨region, member, Nat.le_refl _, by omega⟩))).to ?_
  omega

/-- Freeing a mapping stays within it. -/
theorem Mappings.sfree_within (mappings : Mappings s) (member : region ∈ s.maps) :
    Within (sfree (region.1 + 32)) s [region] := by
  have holds := mappings.holds region member
  exact ⟨(), _, _, sfree_mapping mappings member,
    sfree_holding (s := confined s [region]) holds (by simp [confined]), rfl, rfl⟩

/-- A resize that leaves the mapping whole stays within it. -/
theorem Mappings.srealloc_within (mappings : Mappings s) (member : region ∈ s.maps)
    (whole : 0 < n → n ≤ 100000000 → n ≤ region.2 - 32 ∧ ¬splits (region.2 - 32) n) :
    Within (srealloc (region.1 + 32) n) s [region] := by
  have holds := mappings.holds region member
  have stays : ∀ w : State, w.bytes = s.bytes → region ∈ w.maps →
      ∃ x, (x = if n = 0 ∨ 100000000 < n then 0 else region.1 + 32) ∧
        Returns (srealloc (region.1 + 32) n) w x w := by
    intro w same listed
    refine ⟨_, rfl, ?_⟩
    by_cases outside : n = 0 ∨ 100000000 < n
    · rw [if_pos outside]
      exact Returns.ifPos outside Returns.pure
    · obtain ⟨fits, uncut⟩ := whole (by omega) (by omega)
      rw [if_neg outside]
      unfold srealloc
      refine Returns.ifNeg outside (Returns.ifNeg (by omega) ?_)
      refine Returns.bind (HoldsBlock.reads (same ▸ holds) listed) (Returns.ifPos fits ?_)
      exact Returns.bind (doIf_neg uncut) Returns.pure
  obtain ⟨x, isX, run⟩ := stays s rfl member
  obtain ⟨y, isY, other⟩ := stays (confined s [region]) rfl (by simp [confined])
  rw [isY, ← isX] at other
  exact ⟨x, s, _, run, other, rfl, rfl⟩

/-- Copying a mapping to a writable place clear of its header and giving it back. -/
theorem handOver_returns (holds : HoldsBlock s.bytes region) (member : region ∈ s.maps)
    (writable : s.Mapped q (region.2 - 32))
    (clear : ∀ x, region.1 ≤ x → x < region.1 + 32 → x ∉ cells q (region.2 - 32)) :
    Returns (handOver (region.1 + 32) q) s q
      (unmapped (s.withBytes (copy s.bytes q (region.1 + 32) (region.2 - 32))) region) := by
  have sized := holds.sized
  unfold handOver
  refine Returns.bind (holds.reads member) (Returns.bind (x := ()) (memmove_returns ?_ writable) ?_)
  · exact Or.inr (Or.inr ⟨region, member, by omega, by omega⟩)
  · have kept : HoldsBlock (copy s.bytes q (region.1 + 32) (region.2 - 32)) region :=
      holds.frame (copy_outside _ _ _ _) clear
    exact Returns.bind (sfree_holding (s := s.withBytes _) kept member) Returns.pure

/-- With nothing but a mapping accessible, its header cannot be taken off the block
list. -/
theorem removeMetadata_faults (mappings : Mappings s) (member : region ∈ s.maps)
    (elsewhere : s.globals.blockList.head = 0 ∨ s.globals.blockList.head + 32 ≤ region.1 ∨
      region.1 + region.2 ≤ s.globals.blockList.head) :
    Faults (removeMetadata region.1) (confined s [region]) .segv := by
  obtain ⟨head, isHead⟩ : ∃ head, head = s.globals.blockList.head := ⟨_, rfl⟩
  have holds := mappings.holds region member
  have proper := holds.proper
  have page := holds.page
  have length := mappings.length member
  rw [← isHead] at elsewhere
  unfold removeMetadata
  refine Returns.bind_faults countNode_returns (Returns.bind_faults getHead_returns ?_)
  simp only [relink, confined, ← isHead]
  refine (congrFun (if_neg (by omega)) _).trans (Faults.bind (if_neg ?_))
  rintro (none | ⟨low, high⟩ | ⟨other, listed, low, high⟩)
  · omega
  · simp only at low high
    omega
  · obtain rfl := List.mem_singleton.mp listed
    omega

/-- Cutting a mapping does not stay within it. -/
theorem srealloc_cuts (sound : Sound s blocks) (member : region ∈ s.maps) (low : 0 < n)
    (high : n ≤ 100000000) (fits : n ≤ region.2 - 32) (cut : splits (region.2 - 32) n) :
    Faults (srealloc (region.1 + 32) n) (confined s [region]) .segv := by
  have holds := sound.mappings.holds region member
  have listed : region ∈ (confined s [region]).maps := by simp [confined]
  have reads := HoldsBlock.reads (s := confined s [region]) holds listed
  have elsewhere : s.globals.blockList.head = 0 ∨ s.globals.blockList.head + 32 ≤ region.1 ∨
      region.1 + region.2 ≤ s.globals.blockList.head := by
    obtain ⟨nodes, perm, linked, _⟩ := sound.tiled.listed
    have first : s.globals.blockList.head = nodes.headD 0 := linked.chain.head
    rw [first]
    cases nodes with
    | nil => exact Or.inl rfl
    | cons node more =>
      obtain ⟨b, known, same⟩ := List.mem_map.mp (perm.mem_iff.mp (List.mem_cons_self))
      have := sound.within known
      have := sound.mappings.apart region member
      simp only [List.headD_cons]
      omega
  unfold srealloc
  refine (congrFun (if_neg (by omega)) _).trans ((congrFun (if_neg (by omega)) _).trans ?_)
  refine Returns.bind_faults reads ((congrFun (if_pos fits) _).trans (Faults.bind ?_))
  refine (congrFun (if_pos cut) _).trans ?_
  simp only [SOM, Nat.add_sub_cancel] at reads ⊢
  refine Returns.bind_faults reads (Returns.bind_faults updateStatistics_returns (Faults.bind ?_))
  exact removeMetadata_faults (s := withStatistics s _) ⟨sound.mappings.apart, sound.mappings.holds,
    sound.mappings.separate⟩ member elsewhere

/-- A resize of a mapping stays apart from everything else exactly when it fits. -/
theorem Sound.resizesApart_iff (sound : Sound s blocks) (member : region ∈ s.maps) :
    ResizesApart s region n ↔ ResizeFits s blocks region n := by
  have holds := sound.mappings.holds region member
  have length := sound.mappings.length member
  have : 0 < MMAP_THRESHOLD := by decide
  unfold ResizesApart ResizeFits
  by_cases growing : region.2 - 32 < n ∧ n ≤ 100000000
  · rw [if_pos growing, if_pos growing]
    obtain ⟨q, t, new, run, served, _, widens, _⟩ := smalloc_served sound n
    constructor
    · rintro ⟨q', t', run', _, x, u, _, returned, _⟩
      obtain ⟨rfl, rfl⟩ := run'.unique run
      cases served with
      | granted satisfied => exact satisfied
      | refused _ null same after =>
        subst null same
        have still : Sound t' new := by
          rcases after with rfl | rfl
          · exact sound
          · exact sound.answered
        have listed := widens.maps member
        have faults : Faults (handOver (region.1 + 32) 0) t' .segv :=
          Returns.bind_faults ((still.mappings.holds region listed).reads listed)
            (memmove_faults (still.null_unmapped (by omega))).bind
        exact absurd returned faults.not_returns
    · intro satisfied
      cases served with
      | refused denied => exact absurd satisfied denied
      | granted _ capacity fits transfer =>
        obtain ⟨rest, _, after, _⟩ := transfer.ledger
        have target : (q, capacity) ∈ owned new t.maps := after.mem_iff.mpr (by simp)
        have listed := widens.maps member
        have still := transfer.sound.mappings.holds region listed
        have clear : ∀ x, region.1 ≤ x → x < region.1 + 32 → x ∉ cells q (region.2 - 32) := by
          intro x low high inside
          simp only [mem_cells] at inside
          have payload : x ∈ payloadCells (owned new t.maps) :=
            ⟨(q, capacity), target, inside.1, by simp only; omega⟩
          exact Set.disjoint_left.mp transfer.sound.clear payload (Or.inr ⟨region, listed, low, high⟩)
        refine ⟨q, t, run, ?_, q, _, _, handOver_returns still listed ?_ clear,
          handOver_returns (s := confined t [region, (q, region.2 - 32)]) still (by simp [confined])
            ?_ clear, rfl, rfl⟩
        · unfold srealloc
          rw [if_neg (by omega), if_neg (by omega)]
          refine (holds.reads member).step.trans ?_
          rw [if_neg (by omega), if_neg (by omega), remap_eq]
          exact run.step
        · exact (transfer.sound.payload_mapped target).sub (Nat.le_refl _) (by simp only; omega)
        · exact Or.inr (Or.inr ⟨(q, region.2 - 32), by simp [confined], Nat.le_refl _, Nat.le_refl _⟩)
  · rw [if_neg growing, if_neg growing]
    constructor
    · rintro ⟨x, t, u, _, returned, _⟩ low high cut
      exact (srealloc_cuts sound member low high (by omega) cut).not_returns returned
    · intro whole
      exact sound.mappings.srealloc_within member fun low high => ⟨by omega, whole low high⟩

/-- In every state that a safe run reaches the mappings are separated from the heap,
freeing one stays within it, and a resize of one does exactly when it fits. -/
theorem runs_separate_iff (launch : Launch) (aligned : launch.brk % 8 = 0) (calls : List Call)
    (safe : During launch Safe calls) :
    Ends (fun sys => ∃ blocks, Separated sys blocks ∧ ∀ region ∈ sys.state.maps,
        Within (sfree (region.1 + 32)) sys.state [region] ∧
        ∀ n, ResizesApart sys.state region n ↔ ResizeFits sys.state blocks region n)
      (fun _ => True) (run launch calls) :=
  (safe_run launch aligned safe).mono fun _ ⟨blocks, occupied⟩ =>
    ⟨blocks, occupied.toHeld.separated, fun _ member =>
      ⟨occupied.mappings.sfree_within member, fun _ => occupied.toSound.resizesApart_iff member⟩⟩

/-- After these calls one mapping is left. -/
theorem runs_separate_iff_sample : (run amply resizes.dropLast).toOption.isSome = true ∧
    Ends (fun sys => ∃ blocks, Separated sys blocks ∧ ∀ region ∈ sys.state.maps,
        Within (sfree (region.1 + 32)) sys.state [region] ∧
        ∀ n, ResizesApart sys.state region n ↔ ResizeFits sys.state blocks region n)
      (fun _ => True) (run amply resizes.dropLast) :=
  ⟨by decide +kernel, runs_separate_iff amply (by decide) resizes.dropLast (by decide +kernel)⟩

/-- A mapping of 200000 bytes that cannot be resized to 8 with nothing else
accessible. -/
def strays (sys : System) : Bool :=
  decide (sys.state.maps = [(8192, 200032)]) &&
    (srealloc 8224 8 (confined sys.state [(8192, 200032)])).toOption.isNone

/-- Shrinking a mapping cuts it like a block of the heap. -/
theorem run_cuts_mapping : ¬∀ (launch : Launch) (calls : List Call),
    launch.brk % 8 = 0 → During launch Legal calls →
      Ends (fun sys => ∃ blocks, Separated sys blocks ∧ ∀ region ∈ sys.state.maps,
          Within (sfree (region.1 + 32)) sys.state [region] ∧
          ∀ n, ResizesApart sys.state region n)
        (fun _ => True) (run launch calls) := by
  intro always
  have within : During (pageLaunch [.grant 0 (fun _ => 1), .grant 8192 (fun _ => 0)]) Legal
      [.smalloc 8, .smalloc 200000] := by decide +kernel
  refine not_ends (fun sys => !strays sys) (fun sys ⟨_, _, apart⟩ => ?_) ?_
    (always _ _ (by decide) within)
  · decide +kernel
  · cases here : strays sys with
    | false => rfl
    | true =>
      obtain ⟨maps, stops⟩ := Bool.and_eq_true_iff.mp here
      have resizes := (apart (8192, 200032) (by rw [of_decide_eq_true maps]; simp)).2 8
      rw [ResizesApart, if_neg (by decide)] at resizes
      obtain ⟨x, t, u, _, returned, _⟩ := resizes
      rw [show srealloc 8224 8 (confined sys.state [(8192, 200032)]) = _ from returned] at stops
      exact absurd stops (by simp [Except.toOption])

end OperatingSystems.Malloc3
